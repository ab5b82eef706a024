import Arena0.State

/-!
# Transitions of the execution aggregate

Activation, accepted dispatches, signature collection, certification, stops and
receipt publication.  Every transition returns the next aggregate or the error
that left the aggregate as it was.
-/

namespace Arena0

open Borsh Fallible

variable {κ : Primitives} {event : Event}

variable (κ) in
/-- What an accepted guest dispatch hands to the protocol. -/
structure DispatchResult where
  sharedState : SharedStateBytes
  localState : LocalStateBytes
  effects : List Effect
  terminalOutcome : Option (TerminalOutcome κ)
  callout : Option CalloutRequest
  deriving DecidableEq

def indexedDispatchEffects (effects : List Effect) :
    Except ProtocolError (List (UInt32 × Effect)) := do
  ensure (effects.length ≤ 2 ^ 32) (.collectionTooLarge "effects" effects.length (2 ^ 32 - 1))
  return effects.zipIdx.map fun p => (UInt32.ofNat p.2, p.1)

theorem validateEffects_filter {effects : List Effect} {indexed : List (UInt32 × Effect)}
    (hbudget : checkEffectBudget effects = .ok ())
    (h : indexedDispatchEffects effects = .ok indexed) (keep : UInt32 × Effect → Bool) :
    validateEffects (indexed.filter keep) = .ok () := by
  simp only [indexedDispatchEffects, bind_eq_ok, ensure_eq_ok, pure_eq_ok] at h
  obtain ⟨-, -, rfl⟩ := h
  have hlen := (checkEffectBudget_eq_ok.1 hbudget).1
  have hmax : maxEffects < 2 ^ 32 := by decide
  have hord : (effects.zipIdx.map fun p => (UInt32.ofNat p.2, p.1)).map (·.1.toNat) =
      List.range' 0 effects.length := by
    rw [← List.zipIdx_map_snd 0 effects, List.map_map]
    refine List.map_congr_left fun p hp => ?_
    have hlt := List.snd_lt_of_mem_zipIdx hp
    simp only [Function.comp_apply, UInt32.toNat_ofNat']
    exact Nat.mod_eq_of_lt (by omega)
  have heff : (effects.zipIdx.map fun p => (UInt32.ofNat p.2, p.1)).map (·.2) = effects := by
    rw [List.map_map]
    exact List.zipIdx_map_fst 0 effects
  have hsub := List.filter_sublist (p := keep)
    (l := effects.zipIdx.map fun p => (UInt32.ofNat p.2, p.1))
  have hsubord := hsub.map fun p : UInt32 × Effect => p.1.toNat
  have hsubeff := hsub.map fun p : UInt32 × Effect => p.2
  rw [hord] at hsubord
  rw [heff] at hsubeff
  simp only [validateEffects, bind_eq_ok, ensure_eq_ok]
  refine ⟨(), ?_, (), ?_, checkEffectBudget_sublist hsubeff hbudget⟩
  · intro p hp
    have hmem := hsubord.subset (List.mem_map_of_mem hp)
    rw [List.mem_range'_1] at hmem
    omega
  · exact ((List.pairwise_lt_range' 1).sublist hsubord).isChain

def appendBroadcasts (outgoing : List Bytes) : List Effect → Except ProtocolError (List Bytes)
  | [] => .ok outgoing
  | .broadcast data :: effects => do
    ensure (outgoing.length < maxOutgoingMessages)
      (.outgoingQueueFull outgoing.length maxOutgoingMessages)
    appendBroadcasts (outgoing ++ [data]) effects
  | _ :: effects => appendBroadcasts outgoing effects

def Event.isAgreed : Event → Bool
  | .sessionStarted _ | .messageReceived .. => true
  | .inputReceived .. | .timerFired _ | .directReceived .. => false

def Event.isInput : Event → Bool
  | .inputReceived .. => true
  | _ => false

def StepEvent.ofEvent : Event → Option StepEvent
  | .sessionStarted ensemble => some (.sessionStarted ensemble)
  | .messageReceived source msg => some (.message source msg)
  | .inputReceived .. | .timerFired _ | .directReceived .. => none

def Effect.isSetTimer : Effect → Bool
  | .setTimer .. => true
  | _ => false

def Effect.isSendDirect : Effect → Bool
  | .sendDirect .. => true
  | _ => false

def Effect.isBroadcast : Effect → Bool
  | .broadcast _ => true
  | _ => false

namespace ExecutionState

def new (executionId : ExecId) (activation : Activation κ) (producer : PeerId)
    (sharedState : SharedStateBytes) (localState : LocalStateBytes) :
    Except ProtocolError (ExecutionState κ) := do
  let binding ← ExecutionBinding.new activation
  let receiptOverhead ← ReceiptArtifact.reservedOverhead binding
  ensure (receiptOverhead ≤ maxReceiptBytes) (.receiptBudgetExhausted 0)
  ensure (binding.isParticipant producer = true) (.unknownParticipant producer)
  ensure (StateHash.ofShared κ sharedState = binding.activation.offer.data.initialState)
    .stateHashMismatch
  return {
    executionId, binding, producer
    status := .activating
    version := 0
    eventPosition := 0
    agreedStep := 0
    traceBytes := 0
    receiptOverhead
    agreedState := .ofShared κ sharedState
    agreedLink := chainStart
    lastCertificate := none
    endPhase := .open
    direct := .empty
    outgoing := []
    sharedState, localState
    proposal := none
    callout := none }

/-! ### The receipt budget -/

/-- The encoded length of an entry once all participants have agreed on it. -/
def certifiedLength (binding : ExecutionBinding κ) (entry : TraceEntry) :
    Except ProtocolError ℕ := do
  let signers ← (SignerSet.full binding.activation.tickets.length).mapError .invalidCertificate
  let encoded ← okOr
    (TraceEntry.codec.toVec { entry with agreement := { entry.agreement with signers := signers } })
    (.serialization "length exceeds bound")
  return encoded.length

/-- The trace size with this entry certified, inside the receipt bound with the reserve. -/
def checkReceiptBudget (s : ExecutionState κ) (entry : TraceEntry) : Except ProtocolError ℕ := do
  let bytes ← certifiedLength s.binding entry
  ensure (s.agreedStep.toNat + 1 ≤ maxReceiptTraceEntries ∧
    s.traceBytes + bytes + s.receiptOverhead ≤ maxReceiptBytes)
    (.receiptBudgetExhausted s.agreedStep)
  return s.traceBytes + bytes

theorem certifiedLength_pos {binding : ExecutionBinding κ} {entry : TraceEntry} {n : ℕ}
    (h : certifiedLength binding entry = .ok n) : 0 < n := by
  simp only [certifiedLength, bind_eq_ok, okOr_eq_ok, pure_eq_ok, Codec.toVec_eq_some_iff] at h
  obtain ⟨signers, _, _, ⟨_, rfl⟩, rfl⟩ := h
  simp only [TraceEntry.codec, Codec.guarded_encode, Codec.equiv_encode, Codec.pair_encode,
    List.length_append]
  have hfour : ∀ w : UInt32, (Codec.u32.encode w).length = 4 := fun w => Codec.length_leBytes 4 _
  have := hfour entry.traceVersion
  simp only [Equiv.coe_fn_symm_mk, this]
  omega

variable {s : ExecutionState κ}

theorem checkReceiptBudget_eq_ok {entry : TraceEntry} {traceBytes : ℕ}
    (h : s.checkReceiptBudget entry = .ok traceBytes) :
    ∃ bytes, certifiedLength s.binding entry = .ok bytes ∧ traceBytes = s.traceBytes + bytes ∧
      s.agreedStep.toNat + 1 ≤ maxReceiptTraceEntries ∧
      traceBytes + s.receiptOverhead ≤ maxReceiptBytes := by
  simp only [checkReceiptBudget, bind_eq_ok, ensure_eq_ok, pure_eq_ok] at h
  obtain ⟨bytes, hb, _, ⟨hstep, hle⟩, rfl⟩ := h
  exact ⟨bytes, hb, rfl, hstep, hle⟩

/-! ### Activation and dispatch -/

/-- Activate an execution after its activation has been durably committed. -/
def activate (s : ExecutionState κ) : Except ProtocolError (ExecutionState κ) := do
  ensure (s.status = .activating) (.illegalLifecycle s.lifecycle "activate")
  ensure (s.proposal = none)
    (.invalidCertificate "activating execution cannot retain a proposal")
  { s with status := .active }.bumpVersion

variable {t : ExecutionState κ}

theorem activate_eq_ok (h : s.activate = .ok t) :
    s.status = .activating ∧ s.proposal = none ∧
      ∃ v, checkedAdd s.version 1 = some v ∧ t = { s with status := .active, version := v } := by
  simp only [activate, bind_eq_ok, ensure_eq_ok, bumpVersion_eq_ok] at h
  obtain ⟨_, hs, _, hp, v, hv, rfl⟩ := h
  exact ⟨hs, hp, v, hv, rfl⟩

/-- Only an answer to the open callout may name a pending callout, and it must name it. -/
def validateCalloutDispatch (s : ExecutionState κ) (event : Event) (pendingId : Option UInt64) :
    Except ProtocolError Unit :=
  match event with
  | .inputReceived calloutIndex _ => do
    let answerId ← okOr pendingId .calloutMismatch
    let opened ← okOr s.callout .calloutMismatch
    ensure (opened.id = answerId) .calloutMismatch
    ensure (calloutIndex = opened.calloutIndex) .calloutMismatch
  | _ => ensure (pendingId = none) .calloutMismatch

def nextOpenCallout (s : ExecutionState κ) (event : Event) (eventPosition : UInt64)
    (status : ExecutionStatus κ) (callout : Option CalloutRequest) : Option OpenCallout :=
  if status = .active then
    callout.map fun request =>
      let fresh : OpenCallout :=
        ⟨calloutId κ s.executionId eventPosition, request.calloutIndex, request.context⟩
      match s.callout with
      | some current =>
        -- a repeated question keeps its identity unless this event answered it
        if event.isInput = false ∧ current.calloutIndex = request.calloutIndex ∧
            current.context = request.context then current
        else fresh
      | none => fresh
  else none

def queueDirect (s : ExecutionState κ) (direct : OrdMap PeerId DirectLane) :
    List Effect → Except ProtocolError (OrdMap PeerId DirectLane)
  | [] => .ok direct
  | .sendDirect recipient msg range :: effects => do
    ensure (recipient ≠ s.producer ∧ s.binding.isParticipant recipient = true)
      (.unknownParticipant recipient)
    let lane := (direct.get? recipient).getD .default
    ensure (lane.queue.length ≠ maxDirectQueue) (.directQueueFull recipient)
    let seq ← okOr (checkedAdd lane.lastQueued 1) .versionExhausted
    queueDirect s (direct.insert recipient
      { lane with lastQueued := seq, queue := lane.queue ++ [⟨seq, msg, range⟩] }) effects
  | _ :: effects => queueDirect s direct effects

/-- Install one accepted dispatch that does not require shared agreement. -/
def installDispatch (s : ExecutionState κ) (eventPosition : UInt64)
    (sharedState : SharedStateBytes) (localState : LocalStateBytes) (postState : StateHash)
    (outgoing : List Bytes) (status : ExecutionStatus κ) (callout : Option OpenCallout) :
    Except ProtocolError (ExecutionState κ) := do
  ensure (s.proposal = none) .sharedProposalExists
  ensure (s.status = .active) (.illegalLifecycle s.lifecycle "dispatch")
  ensure (status = .active) .invalidTerminalStatus
  ensure (eventPosition = s.eventPosition)
    (.invalidCertificate "dispatch event position is not the next event position")
  ensure (postState = s.agreedState) .stateHashMismatch
  validateOutgoing outgoing
  let nextEventPosition ← okOr (checkedAdd eventPosition 1) .versionExhausted
  { s with
    eventPosition := nextEventPosition
    sharedState := sharedState
    localState := localState
    outgoing := outgoing
    status := status
    callout := callout }.bumpVersion

/-- A local event installs immediately and may not change the agreed state. -/
def applyLocal (s : ExecutionState κ) (event : Event) (result : DispatchResult κ)
    (postState : StateHash) (lifecycle : Option Effect) :
    Except ProtocolError (ExecutionState κ) := do
  ensure (lifecycle = none) .invalidTerminalStatus
  ensure (postState = s.agreedState) .localSharedChange
  ensure (result.terminalOutcome = none) .terminalOutcomeMismatch
  let outgoing ← appendBroadcasts s.outgoing result.effects
  let direct ← s.queueDirect s.direct result.effects
  let next ← s.installDispatch s.eventPosition result.sharedState result.localState postState
    outgoing .active (s.nextOpenCallout event s.eventPosition .active result.callout)
  return { next with direct := direct }

theorem applyLocal_eq_ok {result : DispatchResult κ} {postState : StateHash}
    {lifecycle : Option Effect} (h : s.applyLocal event result postState lifecycle = .ok t) :
    s.proposal = none ∧ s.status = .active ∧ postState = s.agreedState ∧
      ∃ outgoing direct position version,
        appendBroadcasts s.outgoing result.effects = .ok outgoing ∧
        validateOutgoing outgoing = .ok () ∧
        s.queueDirect s.direct result.effects = .ok direct ∧
        checkedAdd s.eventPosition 1 = some position ∧ checkedAdd s.version 1 = some version ∧
        t = { s with
          eventPosition := position
          sharedState := result.sharedState
          localState := result.localState
          outgoing := outgoing
          status := .active
          callout := s.nextOpenCallout event s.eventPosition .active result.callout
          version := version
          direct := direct } := by
  simp only [applyLocal, installDispatch, bind_eq_ok, ensure_eq_ok, okOr_eq_ok, pure_eq_ok,
    bumpVersion_eq_ok] at h
  obtain ⟨_, _, _, hpost, _, _, outgoing, hout, direct, hdir, _, ⟨_, hprop, _, hstat, _, _, _, _, _,
    _, _, hval, position, hpos, version, hver, rfl⟩, rfl⟩ := h
  exact ⟨hprop, hstat, hpost, outgoing, direct, position, version, hout, hval, hdir, hpos, hver, rfl⟩

def stageProposal (s : ExecutionState κ) (proposal : SharedProposal κ) :
    Except ProtocolError (ExecutionState κ) := do
  ensure (s.proposal = none) .sharedProposalExists
  ensure (s.status = .active) (.illegalLifecycle s.lifecycle "shared proposal")
  ensure (proposal.eventPosition = s.eventPosition)
    (.invalidCertificate "proposal event position is not the next event position")
  let nextEventPosition ← okOr (checkedAdd s.eventPosition 1) .versionExhausted
  validateProposal s.binding s.stepCursor s.eventPosition proposal
  let _ ← s.checkReceiptBudget proposal.entry
  { s with eventPosition := nextEventPosition, proposal := some proposal }.bumpVersion

theorem stageProposal_eq_ok {proposal : SharedProposal κ} (h : s.stageProposal proposal = .ok t) :
    s.proposal = none ∧ s.status = .active ∧
      validateProposal s.binding s.stepCursor s.eventPosition proposal = .ok () ∧
      (∃ bytes, s.checkReceiptBudget proposal.entry = .ok bytes) ∧
      ∃ position version, checkedAdd s.eventPosition 1 = some position ∧
        checkedAdd s.version 1 = some version ∧
        t = { s with eventPosition := position, proposal := some proposal, version := version } := by
  simp only [stageProposal, bind_eq_ok, ensure_eq_ok, okOr_eq_ok, bumpVersion_eq_ok] at h
  obtain ⟨_, hp, _, hs, _, _, position, hpos, _, hval, bytes, hb, version, hver, rfl⟩ := h
  exact ⟨hp, hs, hval, ⟨bytes, hb⟩, position, version, hpos, hver, rfl⟩

/-- The queue without its head when this participant's own queued message is dispatched. -/
def popOwnMessage (s : ExecutionState κ) : Event → Except ProtocolError (List Bytes)
  | .messageReceived source msg =>
    if source = s.producer then
      match s.outgoing with
      | head :: rest => do
        ensure (head = msg) .notQueuedMessage
        return rest
      | [] => .error .notQueuedMessage
    else .ok s.outgoing
  | _ => .ok s.outgoing

def establishingFrame (s : ExecutionState κ) (commitment : StepCommitment) :
    Event → Option ExecFrame
  | .messageReceived source msg =>
    if source = s.producer then some (.message commitment msg) else none
  | _ => none

def applyAgreed (s : ExecutionState κ) (event : Event) (result : DispatchResult κ)
    (postState : StateHash) (indexed : List (UInt32 × Effect)) (lifecycle : Option Effect) :
    Except ProtocolError (ExecutionState κ × Option ExecFrame) := do
  let outgoing ← s.popOwnMessage event
  let traceEvent ← okOr (StepEvent.ofEvent event)
    (.invalidCertificate "shared dispatch requires a portable event")
  let outgoing ← appendBroadcasts outgoing result.effects
  let entry : TraceEntry :=
    { traceVersion := traceFormatVersion
      step := s.agreedStep
      event := traceEvent
      preState := s.agreedState
      postState := postState
      terminal := lifecycle.bind StepTerminal.fromEffect
      agreement := .empty }
  let commitment := StepCommitment.forEntry κ s.binding.sessionId entry s.agreedLink
  let status ← ExecutionStatus.fromProposalEntry entry commitment result.terminalOutcome
  let proposal ← SharedProposal.new entry result.sharedState result.localState outgoing
    (indexed.filter fun p => !p.2.isBroadcast) s.eventPosition status
    (s.nextOpenCallout event s.eventPosition status result.callout) []
  let next ← s.stageProposal proposal
  return (next, s.establishingFrame commitment event)

def applyDispatch (s : ExecutionState κ) (event : Event) (result : DispatchResult κ)
    (pendingId : Option UInt64) : Except ProtocolError (ExecutionState κ × Option ExecFrame) := do
  ensure (s.proposal = none) .sharedProposalExists
  let postState := StateHash.ofShared κ result.sharedState
  let indexed ← indexedDispatchEffects result.effects
  let lifecycle ← singleLifecycleEffect result.effects
  ensure (lifecycle = none ∨ result.effects.any Effect.isSetTimer = false) .invalidTerminalStatus
  s.validateCalloutDispatch event pendingId
  checkEffectBudget result.effects
  if event.isAgreed then do
    ensure (result.effects.any Effect.isSendDirect = false) .directFromAgreedEvent
    s.applyAgreed event result postState indexed lifecycle
  else do
    let next ← s.applyLocal event result postState lifecycle
    return (next, none)

structure StagedBy (s : ExecutionState κ) (event : Event) (result : DispatchResult κ)
    (proposal : SharedProposal κ) : Prop where
  event_eq : StepEvent.ofEvent event = some proposal.entry.event
  step_eq : proposal.entry.step = s.agreedStep
  signatures_eq : proposal.signatures = []
  position_eq : proposal.eventPosition = s.eventPosition
  effects_eq : ∃ indexed, indexedDispatchEffects result.effects = .ok indexed ∧
    proposal.effects = indexed.filter fun p => !p.2.isBroadcast
  outgoing_eq : ∃ rest, s.popOwnMessage event = .ok rest ∧
    appendBroadcasts rest result.effects = .ok proposal.outgoing
  outgoing_valid : validateOutgoing proposal.outgoing = .ok ()
  callout_valid : proposal.status = .active ∨ proposal.callout = none
  callout_eq : proposal.callout =
    s.nextOpenCallout event s.eventPosition proposal.status result.callout
  valid : validateProposal s.binding s.stepCursor s.eventPosition proposal = .ok ()
  budget : ∃ bytes, s.checkReceiptBudget proposal.entry = .ok bytes

theorem applyAgreed_eq_ok {result : DispatchResult κ}
    {indexed : List (UInt32 × Effect)} {lifecycle : Option Effect} {frame : Option ExecFrame}
    (hindexed : indexedDispatchEffects result.effects = .ok indexed)
    (h : s.applyAgreed event result (.ofShared κ result.sharedState) indexed lifecycle
      = .ok (t, frame)) :
    s.proposal = none ∧ s.status = .active ∧
      ∃ proposal position version, StagedBy s event result proposal ∧
        frame = s.establishingFrame (s.commitmentFor proposal) event ∧
        checkedAdd s.eventPosition 1 = some position ∧ checkedAdd s.version 1 = some version ∧
        t = { s with eventPosition := position, proposal := some proposal, version := version } := by
  simp only [applyAgreed, SharedProposal.new, bind_eq_ok, ensure_eq_ok, okOr_eq_ok,
    pure_eq_ok, Prod.mk.injEq] at h
  obtain ⟨rest, hrest, traceEvent, hevent, outgoing, hout, status, _, proposal,
    ⟨_, _, _, hval, _, hcall, rfl⟩, next, hstage, rfl, rfl⟩ := h
  obtain ⟨hp, hs, hvalid, hbudget, position, version, hpos, hver, rfl⟩ := stageProposal_eq_ok hstage
  exact ⟨hp, hs, _, position, version,
    ⟨hevent, rfl, rfl, rfl, ⟨indexed, hindexed, rfl⟩, ⟨rest, hrest, hout⟩, hval, hcall, rfl,
      hvalid, hbudget⟩, rfl, hpos, hver, rfl⟩

/-- A dispatch either installs a local result or stages a proposal. -/
theorem applyDispatch_eq_ok {result : DispatchResult κ} {pendingId : Option UInt64}
    {frame : Option ExecFrame} (h : s.applyDispatch event result pendingId = .ok (t, frame)) :
    checkEffectBudget result.effects = .ok () ∧
      ((event.isAgreed = false ∧ frame = none ∧ ∃ lifecycle,
          s.applyLocal event result (.ofShared κ result.sharedState) lifecycle = .ok t) ∨
        (event.isAgreed = true ∧ result.effects.any Effect.isSendDirect = false ∧
          ∃ indexed lifecycle, indexedDispatchEffects result.effects = .ok indexed ∧
          s.applyAgreed event result (.ofShared κ result.sharedState) indexed lifecycle
            = .ok (t, frame))) := by
  simp only [applyDispatch, bind_eq_ok, ensure_eq_ok] at h
  obtain ⟨_, _, indexed, hindexed, lifecycle, _, _, _, _, _, _, hbudget, h⟩ := h
  refine ⟨hbudget, ?_⟩
  split at h
  · rename_i hagreed
    simp only [bind_eq_ok, ensure_eq_ok] at h
    obtain ⟨_, hdirect, h⟩ := h
    exact .inr ⟨hagreed, hdirect, indexed, lifecycle, hindexed, h⟩
  · rename_i hlocal
    simp only [bind_eq_ok, pure_eq_ok, Prod.mk.injEq] at h
    obtain ⟨next, hnext, rfl, rfl⟩ := h
    exact .inl ⟨by simpa using hlocal, rfl, lifecycle, hnext⟩

/-- Drop the head of the queue after the program rejected it. -/
def dropOutgoingHead (s : ExecutionState κ) : Except ProtocolError (ExecutionState κ) := do
  ensure (s.proposal = none) .sharedProposalExists
  ensure (s.outgoing ≠ []) .notQueuedMessage
  { s with outgoing := s.outgoing.tail }.bumpVersion

theorem dropOutgoingHead_eq_ok (h : s.dropOutgoingHead = .ok t) :
    s.proposal = none ∧ ∃ v, checkedAdd s.version 1 = some v ∧
      t = { s with outgoing := s.outgoing.tail, version := v } := by
  simp only [dropOutgoingHead, bind_eq_ok, ensure_eq_ok, bumpVersion_eq_ok] at h
  obtain ⟨_, hp, _, _, v, hv, rfl⟩ := h
  exact ⟨hp, v, hv, rfl⟩

/-! ### Certification -/

def installCertified (s : ExecutionState κ) (certificate : StepCertificate) :
    Except ProtocolError (ExecutionState κ × SharedProposal κ) := do
  let proposal ← okOr s.proposal .sharedProposalMissing
  validateProposal s.binding s.stepCursor proposal.eventPosition proposal
  ensure (certificate.commitment = s.commitmentFor proposal)
    (.invalidCertificate "step certificate does not match the staged proposal")
  certificate.verify s.binding
  let next ← s.stepCursor.advance κ certificate.commitment
  let traceBytes ← s.checkReceiptBudget proposal.entry
  let _ ← s.checkReceiptBudget proposal.entry
  let committed :=
    { proposal with entry := { proposal.entry with agreement := certificate.agreement } }
  let ended := { s with
    proposal := none
    agreedStep := next.nextStep
    traceBytes := traceBytes
    agreedState := next.stateHash
    agreedLink := next.chainHash
    lastCertificate := some certificate
    sharedState := committed.sharedState
    localState := committed.localState
    outgoing := committed.outgoing
    status := committed.status }.beginEnd
  return ({ ended with callout := committed.callout }, committed)

def certifyStep (s : ExecutionState κ) (certificate : StepCertificate) :
    Except ProtocolError (ExecutionState κ × SharedProposal κ) := do
  let (next, committed) ← s.installCertified certificate
  let next ← next.bumpVersion
  return (next, committed)

def certified (s : ExecutionState κ) (proposal : SharedProposal κ) (certificate : StepCertificate)
    (next : StepCursor) (traceBytes : ℕ) : ExecutionState κ :=
  { ({ s with
      proposal := none
      agreedStep := next.nextStep
      traceBytes := traceBytes
      agreedState := next.stateHash
      agreedLink := next.chainHash
      lastCertificate := some certificate
      sharedState := proposal.sharedState
      localState := proposal.localState
      outgoing := proposal.outgoing
      status := proposal.status } : ExecutionState κ).beginEnd with callout := proposal.callout }

/-- What a certification checks and does. -/
theorem certifyStep_eq_ok {certificate : StepCertificate} {committed : SharedProposal κ}
    (h : s.certifyStep certificate = .ok (t, committed)) :
    ∃ proposal next traceBytes version, s.proposal = some proposal ∧
      validateProposal s.binding s.stepCursor proposal.eventPosition proposal = .ok () ∧
      certificate.commitment = s.commitmentFor proposal ∧
      certificate.verify s.binding = .ok () ∧
      s.stepCursor.advance κ certificate.commitment = .ok next ∧
      s.checkReceiptBudget proposal.entry = .ok traceBytes ∧
      checkedAdd s.version 1 = some version ∧
      committed = { proposal with
        entry := { proposal.entry with agreement := certificate.agreement } } ∧
      t = { s.certified proposal certificate next traceBytes with version := version } := by
  simp only [certifyStep, installCertified, bind_eq_ok, okOr_eq_ok, ensure_eq_ok, pure_eq_ok,
    bumpVersion_eq_ok, Prod.exists, Prod.mk.injEq] at h
  obtain ⟨_, _, ⟨proposal, hp, _, hval, _, hcomm, _, hver, next, hadv, traceBytes, hb, _, _, rfl,
    rfl⟩, _, ⟨version, hversion, rfl⟩, rfl, rfl⟩ := h
  exact ⟨proposal, next, traceBytes, version, hp, hval, hcomm, hver, hadv, hb, hversion, rfl, rfl⟩

/-- Add a step signature; the last one commits the proposal. -/
def addStepSignature (s : ExecutionState κ) (signature : ParticipantStepSignature) :
    Except ProtocolError (ExecutionState κ × Option (SharedProposal κ)) := do
  let proposal ← okOr s.proposal .sharedProposalMissing
  let _ ← s.checkReceiptBudget proposal.entry
  let commitment := s.commitmentFor proposal
  let proposal ← proposal.addSignature s.binding commitment signature
  let next := { s with proposal := some proposal }
  if proposal.signatures.length = s.binding.activation.tickets.length then do
    let certificate ← StepCertificate.fromSignatures s.binding commitment proposal
    let (next, committed) ← next.installCertified certificate
    let next ← next.bumpVersion
    return (next, some committed)
  else do
    let next ← next.bumpVersion
    return (next, none)

/-- A signature is collected, or it completes the proposal and certifies it. -/
theorem addStepSignature_eq_ok {x : ParticipantStepSignature}
    {committed : Option (SharedProposal κ)} (h : s.addStepSignature x = .ok (t, committed)) :
    ∃ proposal signed, s.proposal = some proposal ∧
      proposal.addSignature s.binding (s.commitmentFor proposal) x = .ok signed ∧
      ((signed.signatures.length ≠ s.binding.activation.tickets.length ∧ committed = none ∧
          ∃ v, checkedAdd s.version 1 = some v ∧
            t = { s with proposal := some signed, version := v }) ∨
        (signed.signatures.length = s.binding.activation.tickets.length ∧
          ∃ certificate done, committed = some done ∧
            StepCertificate.fromSignatures s.binding (s.commitmentFor proposal) signed
              = .ok certificate ∧
            { s with proposal := some signed }.certifyStep certificate = .ok (t, done))) := by
  simp only [addStepSignature, bind_eq_ok, okOr_eq_ok] at h
  obtain ⟨proposal, hp, _, _, signed, hsigned, h⟩ := h
  refine ⟨proposal, signed, hp, hsigned, ?_⟩
  split at h
  · rename_i hlen
    simp only [bind_eq_ok, pure_eq_ok, Prod.exists, Prod.mk.injEq] at h
    obtain ⟨certificate, hcert, next, done, hinst, _, hbump, rfl, rfl⟩ := h
    refine .inr ⟨hlen, certificate, done, rfl, hcert, ?_⟩
    simp only [certifyStep, bind_eq_ok, pure_eq_ok, Prod.exists, Prod.mk.injEq]
    exact ⟨next, done, hinst, _, hbump, rfl, rfl⟩
  · rename_i hlen
    simp only [bind_eq_ok, pure_eq_ok, bumpVersion_eq_ok, Prod.mk.injEq] at h
    obtain ⟨_, ⟨v, hv, rfl⟩, rfl, rfl⟩ := h
    exact .inl ⟨hlen, rfl, v, hv, rfl⟩

/-! ### Stops and receipts -/

def hasSigned (proposal : SharedProposal κ) (peer : PeerId) : Bool :=
  proposal.signatures.any (·.participant = peer)

/-- Accept an authenticated stop at the current agreed cursor. -/
def stop (s : ExecutionState κ) (occurrence : AbortOccurrence) :
    Except ProtocolError (ExecutionState κ) := do
  occurrence.validateForSession s.binding.sessionId
  ensure (s.binding.isParticipant occurrence.sender = true) .unauthenticatedAbort
  let valid ← occurrence.verifySignature κ
  ensure (valid = true) .unauthenticatedAbort
  ensure (occurrence.coordinate = s.stepCursor) .invalidAbortCoordinate
  ensure (s.status.isTerminal = false) .alreadyTerminal
  ensure (∀ proposal ∈ s.proposal, hasSigned proposal occurrence.sender = false)
    .sharedProposalSigned
  occurrence.validateShape
  { s with
    proposal := none
    callout := none
    status := .stopped (.authenticated occurrence) }.beginEnd.bumpVersion

def stoppedBy (s : ExecutionState κ) (occurrence : AbortOccurrence) : ExecutionState κ :=
  ({ s with
    proposal := none
    callout := none
    status := .stopped (.authenticated occurrence) } : ExecutionState κ).beginEnd

theorem stop_eq_ok {occurrence : AbortOccurrence} (h : s.stop occurrence = .ok t) :
    occurrence.validateForSession s.binding.sessionId = .ok () ∧
      s.binding.isParticipant occurrence.sender = true ∧
      occurrence.verifySignature κ = .ok true ∧ occurrence.coordinate = s.stepCursor ∧
      s.status.isTerminal = false ∧
      (∀ proposal ∈ s.proposal, hasSigned proposal occurrence.sender = false) ∧
      ∃ v, checkedAdd s.version 1 = some v ∧ t = { s.stoppedBy occurrence with version := v } := by
  simp only [stop, bind_eq_ok, ensure_eq_ok, bumpVersion_eq_ok] at h
  obtain ⟨_, hsession, _, hmem, valid, hsig, _, rfl, _, hcur, _, hterm, _, hprop, _, _, v, hv,
    rfl⟩ := h
  exact ⟨hsession, hmem, hsig, hcur, hterm, hprop, v, hv, rfl⟩

def traceLink (κ : Primitives) (sessionId : SessionHash) (link : FixedBytes 32) :
    List TraceEntry → FixedBytes 32
  | [] => link
  | entry :: rest =>
    traceLink κ sessionId ((StepCommitment.forEntry κ sessionId entry link).linkHash κ) rest

def publishedStatus (s : ExecutionState κ) (artifact : ReceiptArtifact κ) :
    Except ProtocolError (ExecutionStatus κ) :=
  match s.status, artifact.body.header.terminal with
  | .certified outcome, .completed => do
    let last ← okOr artifact.body.trace.getLast? .receiptBodyMismatch
    let commitment := StepCommitment.forEntry κ s.binding.sessionId last
      (traceLink κ s.binding.sessionId chainStart artifact.body.trace.dropLast)
    ensure (artifact.body.outcome = outcome.borsh ∧
      checkedAdd last.step 1 = some s.agreedStep ∧ last.postState = s.agreedState ∧
      commitment.linkHash κ = s.agreedLink) .receiptBodyMismatch
    return .completed outcome artifact.receiptId
  | .stopped cause, .stopped bodyCause => do
    ensure (cause = bodyCause) .receiptBodyMismatch
    return .stoppedPublished cause artifact.receiptId
  | .completed .., _ | .stoppedPublished .., _ => .error .terminalAlreadyPublished
  | _, _ => .error .receiptBodyMismatch

/-- Publish a validated receipt artifact of a terminal execution. -/
def publishReceipt (s : ExecutionState κ) (artifact : ReceiptArtifact κ) :
    Except ProtocolError (ExecutionState κ) := do
  validateReceiptBody s.binding artifact.body
  let status ← s.publishedStatus artifact
  { s with status := status, callout := none }.bumpVersion

theorem publishReceipt_eq_ok {artifact : ReceiptArtifact κ}
    (h : s.publishReceipt artifact = .ok t) :
    validateReceiptBody s.binding artifact.body = .ok () ∧
      ∃ status v, s.publishedStatus artifact = .ok status ∧ checkedAdd s.version 1 = some v ∧
        t = { s with status := status, callout := none, version := v } := by
  simp only [publishReceipt, bind_eq_ok, bumpVersion_eq_ok] at h
  obtain ⟨_, hbody, status, hstatus, v, hv, rfl⟩ := h
  exact ⟨hbody, status, v, hstatus, hv, rfl⟩

theorem publishedStatus_eq_ok {artifact : ReceiptArtifact κ} {status : ExecutionStatus κ}
    (h : s.publishedStatus artifact = .ok status) :
    (∃ outcome, s.status = .certified outcome ∧
        status = .completed outcome artifact.receiptId) ∨
      (∃ cause, s.status = .stopped cause ∧
        status = .stoppedPublished cause artifact.receiptId) := by
  unfold publishedStatus at h
  split at h
  · rename_i outcome hs _
    simp only [bind_eq_ok, pure_eq_ok] at h
    obtain ⟨_, _, _, _, rfl⟩ := h
    exact .inl ⟨outcome, hs, rfl⟩
  · rename_i cause bodyCause hs _
    simp only [bind_eq_ok, pure_eq_ok] at h
    obtain ⟨_, _, rfl⟩ := h
    exact .inr ⟨cause, hs, rfl⟩
  all_goals cases h

end ExecutionState

end Arena0
