import Arena0.Lanes
import Arena0.Reference

/-!
# Recovery validation

The checks a restart runs over a persisted aggregate, the invariant behind them,
and its preservation by every transition.
-/

namespace Arena0

open Fallible

variable {κ : Primitives} {producer : PeerId} {result : DispatchResult κ} {seq : UInt64}

namespace ExecutionState

/-! ## The checks of a restart -/

/-- The queue loop: sequence numbers, their succession and the message bounds. -/
def validateQueue (peer : PeerId) (lastQueued : UInt64) :
    Option UInt64 → List DirectEntry → Except ProtocolError Unit
  | _, [] => .ok ()
  | previous, entry :: rest => do
    ensure (entry.seq ≠ 0 ∧ entry.seq ≤ lastQueued ∧
      (∀ p ∈ previous, checkedAdd p 1 = some entry.seq) ∧ (rest = [] → entry.seq = lastQueued))
      (.directOutOfOrder peer entry.seq)
    checkEffectBudget [.sendDirect peer entry.msg entry.range]
    validateQueue peer lastQueued (some entry.seq) rest

def validateLane (s : ExecutionState κ) (peer : PeerId) (lane : DirectLane) :
    Except ProtocolError Unit := do
  ensure (peer ≠ s.producer ∧ s.binding.isParticipant peer = true) (.unknownParticipant peer)
  ensure (lane.queue.length ≤ maxDirectQueue) (.directQueueFull peer)
  ensure (s.endPhase = .open ∨ lane.queue = []) .invalidTerminalStatus
  validateQueue peer lane.lastQueued none lane.queue

/-- The last certificate must be the one of the agreed cursor. -/
def validateLastCertificate (s : ExecutionState κ) : Except ProtocolError Unit :=
  match s.lastCertificate with
  | some certificate => do
    ensure (checkedAdd certificate.commitment.step 1 = some s.agreedStep ∧
      certificate.commitment.postState = s.agreedState ∧
      certificate.commitment.linkHash κ = s.agreedLink)
      (.invalidCertificate "last certificate does not match the agreed cursor")
    certificate.verify s.binding
  | none => ensure (s.agreedStep = 0)
      (.invalidCertificate "last certificate does not match the agreed cursor")

def validateRecoveredProposal (s : ExecutionState κ) (proposal : SharedProposal κ) :
    Except ProtocolError Unit := do
  let expected ← okOr (checkedAdd proposal.eventPosition 1) .versionExhausted
  ensure (s.eventPosition = expected)
    (.invalidCertificate "pending proposal is not paired with the next event position")
  validateEffects proposal.effects
  validateProposal s.binding s.stepCursor proposal.eventPosition proposal
  validateOutgoing proposal.outgoing
  let _ ← s.checkReceiptBudget proposal.entry
  ensure (proposal.status = .active ∨ proposal.callout = none) .invalidCalloutState

def validateRecovered (s : ExecutionState κ) : Except ProtocolError Unit := do
  ensure (s.binding.isParticipant s.producer = true) (.unknownParticipant s.producer)
  ensure (StateHash.ofShared κ s.sharedState = s.agreedState) .stateHashMismatch
  ensure (s.agreedStep = 0 → s.agreedState = s.binding.activation.offer.data.initialState)
    .stateHashMismatch
  ensure ((s.agreedStep = 0 ↔ s.traceBytes = 0) ∧
    s.agreedStep.toNat ≤ maxReceiptTraceEntries ∧
    s.traceBytes + s.receiptOverhead ≤ maxReceiptBytes) (.receiptBudgetExhausted s.agreedStep)
  validateOutgoing s.outgoing
  ensure (s.direct.size ≤ maxParticipants)
    (.collectionTooLarge "direct lanes" s.direct.size maxParticipants)
  forAll (fun p => s.validateLane p.1 p.2) s.direct.entries
  s.validateEnd
  s.validateLastCertificate
  s.status.validateBinding s.binding s.stepCursor
  ensure (s.status = .active ∨ s.callout = none) .invalidCalloutState
  ensure (s.status.isTerminal = false ∨ s.proposal = none)
    (.invalidCertificate "terminal execution cannot retain a shared proposal")
  match s.proposal with
  | some proposal => s.validateRecoveredProposal proposal
  | none => .ok ()

/-! ## The invariant -/

/-- What holds of the lane of another participant. -/
structure LaneRecoverable (binding : ExecutionBinding κ) (producer peer : PeerId)
    (lane : DirectLane) : Prop where
  peer_ne : peer ≠ producer
  participant : binding.isParticipant peer = true
  length_le : lane.queue.length ≤ maxDirectQueue
  queued : lane.Queued
  budget : ∀ entry ∈ lane.queue,
    checkEffectBudget [.sendDirect peer entry.msg entry.range] = .ok ()

structure ProposalRecoverable (s : ExecutionState κ) (proposal : SharedProposal κ) : Prop where
  position : checkedAdd proposal.eventPosition 1 = some s.eventPosition
  effects : validateEffects proposal.effects = .ok ()
  valid : validateProposal s.binding s.stepCursor proposal.eventPosition proposal = .ok ()
  outgoing : validateOutgoing proposal.outgoing = .ok ()
  budget : ∃ bytes, s.checkReceiptBudget proposal.entry = .ok bytes
  callout : proposal.status = .active ∨ proposal.callout = none

/-- The invariant of an aggregate: what a restart checks, apart from the identity of a
published receipt, and the derived reserve. -/
structure Recoverable (s : ExecutionState κ) : Prop where
  producer : s.binding.isParticipant s.producer = true
  shared_hash : StateHash.ofShared κ s.sharedState = s.agreedState
  genesis : s.agreedStep = 0 → s.stepCursor = genesisCursor s.binding
  trace_zero : s.agreedStep = 0 ↔ s.traceBytes = 0
  step_le : s.agreedStep.toNat ≤ maxReceiptTraceEntries
  budget : s.traceBytes + s.receiptOverhead ≤ maxReceiptBytes
  overhead : ReceiptArtifact.reservedOverhead s.binding = .ok s.receiptOverhead
  outgoing : validateOutgoing s.outgoing = .ok ()
  lanes : ∀ peer lane, s.direct.get? peer = some lane →
    LaneRecoverable s.binding s.producer peer lane
  lanes_ended : s.endPhase ≠ .open → ∀ peer lane, s.direct.get? peer = some lane → lane.queue = []
  ending : s.validateEnd = .ok ()
  certificate : s.validateLastCertificate = .ok ()
  status : s.status.unpublished.validateBinding s.binding s.stepCursor = .ok ()
  callout : s.status = .active ∨ s.callout = none
  terminal : s.status.isTerminal = true → s.proposal = none
  proposal : ∀ proposal, s.proposal = some proposal → s.ProposalRecoverable proposal

variable {peer : PeerId}

theorem validateQueue_eq_ok {last : UInt64} {queue : List DirectEntry} {a : ℕ}
    {previous : Option UInt64} (hpos : 0 < a) (hend : a + queue.length = last.toNat + 1)
    (hseqs : queue.map (·.seq.toNat) = List.range' a queue.length)
    (hprev : ∀ p ∈ previous, p.toNat + 1 = a)
    (hbudget : ∀ e ∈ queue, checkEffectBudget [.sendDirect peer e.msg e.range] = .ok ()) :
    validateQueue peer last previous queue = .ok () := by
  induction queue generalizing a previous with
  | nil => rfl
  | cons e rest ih =>
    simp only [List.map_cons, List.length_cons, List.range'_succ, List.cons.injEq] at hseqs hend
    obtain ⟨hseq, hrest⟩ := hseqs
    have hlast := last.toNat_lt
    simp only [validateQueue, bind_eq_ok, ensure_eq_ok]
    refine ⟨(), ⟨?_, ?_, ?_, ?_⟩, (), hbudget e (by simp), ?_⟩
    · intro h0
      simp only [h0, UInt64.toNat_zero] at hseq
      omega
    · rw [UInt64.le_iff_toNat_le]
      omega
    · intro p hp
      have hp' := hprev p hp
      have hsum : p.toNat + (1 : UInt64).toNat < 2 ^ 64 := by simp; omega
      have hadd : (p + 1).toNat = e.seq.toNat := by
        rw [UInt64.toNat_add, Nat.mod_eq_of_lt hsum]
        simpa [hseq] using hp'
      simp only [checkedAdd, hsum, ↓reduceIte, Option.some.injEq]
      exact UInt64.toNat_inj.1 hadd
    · rintro rfl
      simp only [List.length_nil] at hend
      exact UInt64.toNat_inj.1 (by omega)
    · refine ih (a := a + 1) (by omega) (by omega) hrest ?_ fun e' he' => hbudget e' (by simp [he'])
      intro p hp
      cases hp
      omega

variable {s : ExecutionState κ}

theorem LaneRecoverable.validateLane_eq_ok {lane : DirectLane}
    (h : LaneRecoverable s.binding s.producer peer lane)
    (hended : s.endPhase ≠ .open → lane.queue = []) : s.validateLane peer lane = .ok () := by
  simp only [validateLane, bind_eq_ok, ensure_eq_ok]
  refine ⟨(), ⟨h.peer_ne, h.participant⟩, (), h.length_le, (), ?_, ?_⟩
  · by_cases hopen : s.endPhase = .open
    · exact .inl hopen
    · exact .inr (hended hopen)
  · have hle := h.queued.length_le
    exact validateQueue_eq_ok (by omega) (by omega) h.queued.seqs (by simp) h.budget

/-- The invariant implies every check of a restart, unless a receipt was published under
the reserved zero identity. -/
theorem Recoverable.validateRecovered_eq_ok (h : s.Recoverable)
    (hid : ∀ id, s.status.publishedReceiptId = some id → id ≠ 0) :
    s.validateRecovered = .ok () := by
  have hstatus := ExecutionStatus.validateBinding_eq_ok.2 ⟨h.status, hid⟩
  have hlanes : ∀ p ∈ s.direct.entries, s.validateLane p.1 p.2 = .ok () := by
    intro p hp
    have hget := (s.direct.mem_entries_iff p.1 p.2).1 hp
    exact (h.lanes _ _ hget).validateLane_eq_ok fun hopen => h.lanes_ended hopen _ _ hget
  have hsize : s.direct.size ≤ maxParticipants := by
    have hkeys : ∀ p ∈ s.direct.entries, p.1 ∈ s.binding.participants := by
      intro p hp
      have hlane := h.lanes _ _ ((s.direct.mem_entries_iff p.1 p.2).1 hp)
      exact (s.binding.isParticipant_iff p.1).1 hlane.participant
    have hle := OrdMap.size_le_of_keys hkeys
    rw [s.binding.length_participants] at hle
    exact hle.trans s.binding.length_le
  have hgenesis : s.agreedStep = 0 →
      s.agreedState = s.binding.activation.offer.data.initialState := by
    intro h0
    exact congrArg StepCursor.stateHash (h.genesis h0)
  have hterminal : s.status.isTerminal = false ∨ s.proposal = none := by
    cases ht : s.status.isTerminal with
    | false => exact .inl rfl
    | true => exact .inr (h.terminal ht)
  simp only [validateRecovered, bind_eq_ok, ensure_eq_ok, forAll_eq_ok]
  refine ⟨(), h.producer, (), h.shared_hash, (), hgenesis, (), ⟨h.trace_zero, h.step_le, h.budget⟩,
    (), h.outgoing, (), hsize, (), hlanes, (), h.ending, (), h.certificate, (), hstatus, (),
    h.callout, (), hterminal, ?_⟩
  cases hp : s.proposal with
  | none => rfl
  | some proposal =>
    have hr := h.proposal proposal hp
    obtain ⟨bytes, hbytes⟩ := hr.budget
    simp only [validateRecoveredProposal, bind_eq_ok, ensure_eq_ok, okOr_eq_ok]
    exact ⟨_, hr.position, (), rfl, (), hr.effects, (), hr.valid, (), hr.outgoing, bytes, hbytes,
      hr.callout⟩

/-! ## Preservation -/

theorem Recoverable.endPhase_eq_open (h : s.Recoverable) (hs : s.status.isTerminal = false) :
    s.endPhase = .open := by
  have he := h.ending
  cases hp : s.endPhase with
  | «open» => rfl
  | ending u => simp [validateEnd, hp, hs] at he
  | ended u => simp [validateEnd, hp, hs] at he

theorem Recoverable.endPhase_ne_open (h : s.Recoverable) (hs : s.status.isTerminal = true) :
    s.endPhase ≠ .open := by
  intro hp
  have he := h.ending
  simp [validateEnd, hp, hs] at he

theorem Recoverable.running (h : s.Recoverable) {proposal : SharedProposal κ}
    (hproposal : s.proposal = some proposal) : s.status.isTerminal = false := by
  by_contra hterminal
  rw [h.terminal (by simpa using hterminal)] at hproposal
  cases hproposal

theorem Recoverable.stopped (h : s.Recoverable) {occurrence : AbortOccurrence}
    (hcause : s.status.terminalCause = some (.authenticated occurrence)) :
    s.binding.isParticipant occurrence.sender = true ∧ occurrence.coordinate = s.stepCursor ∧
      ∃ bytes, occurrence.signingBytes = .ok bytes := by
  have hstatus := h.status
  rw [ExecutionStatus.unpublished_of_terminalCause hcause] at hstatus
  simp only [ExecutionStatus.validateBinding, StopCause.validateBinding,
    AbortOccurrence.verifySignature, bind_eq_ok, ensure_eq_ok, mapError_eq_ok] at hstatus
  obtain ⟨_, -, _, ⟨-, hcoordinate, hsender⟩, _, ⟨bytes, hbytes, -⟩, -⟩ := hstatus
  exact ⟨hsender, hcoordinate, bytes, hbytes⟩

theorem others_ne_empty (s : ExecutionState κ) : s.others ≠ ∅ := by
  intro h
  have hall : ∀ p ∈ s.binding.participants, p = s.producer := by
    intro p hp
    by_contra hne
    have hmem : p ∈ s.others := by simp [others, hp, hne]
    simp [h] at hmem
  have hsub : s.binding.participants ⊆ [s.producer] := fun p hp => by simp [hall p hp]
  have hlen := (List.subperm_of_subset s.binding.participants_nodup hsub).length_le
  have htwo := s.binding.two_le_length
  simp only [ExecutionBinding.length_participants, List.length_singleton] at hlen
  omega

theorem mem_others : peer ∈ s.others ↔ peer ≠ s.producer ∧ s.binding.isParticipant peer = true := by
  rw [s.binding.isParticipant_iff]
  simp [others, and_comm]

theorem validateEnd_beginEnd (h : s.endPhase = .open) : s.beginEnd.validateEnd = .ok () := by
  by_cases ht : s.status.isTerminal = true
  · have henter : s.entersEnd := ⟨ht, h⟩
    have hmem : ∀ peer ∈ s.others, peer ≠ s.producer ∧ s.binding.isParticipant peer = true :=
      fun peer hp => mem_others.1 hp
    simp only [beginEnd, validateEnd, henter, ↓reduceIte, bind_eq_ok, ensure_eq_ok]
    exact ⟨(), ht, (), s.others_ne_empty, hmem⟩
  · have hf : s.status.isTerminal = false := by simpa using ht
    have henter : ¬ s.entersEnd := fun hc => ht hc.1
    simp [beginEnd, validateEnd, henter, h, hf]

theorem beginEnd_lane {lane : DirectLane} (h : s.beginEnd.direct.get? peer = some lane) :
    ∃ old, s.direct.get? peer = some old ∧
      (lane = old ∧ ¬ s.entersEnd ∨ lane = { old with queue := [] } ∧ s.entersEnd) := by
  by_cases henter : s.entersEnd
  · simp only [beginEnd, henter, ↓reduceIte, OrdMap.get?_mapValues, Option.map_eq_some_iff] at h
    obtain ⟨old, hold, rfl⟩ := h
    exact ⟨old, hold, .inr ⟨rfl, henter⟩⟩
  · simp only [beginEnd, henter, ↓reduceIte] at h
    exact ⟨lane, h, .inl ⟨rfl, henter⟩⟩

theorem LaneRecoverable.clear {binding : ExecutionBinding κ} {lane : DirectLane}
    (h : LaneRecoverable binding producer peer lane) :
    LaneRecoverable binding producer peer { lane with queue := [] } :=
  ⟨h.peer_ne, h.participant, Nat.zero_le _, DirectLane.queued_of_nil rfl, by simp⟩

private theorem lanes_beginEnd
    (h : ∀ peer lane, s.direct.get? peer = some lane →
      LaneRecoverable s.binding s.producer peer lane) :
    ∀ peer lane, s.beginEnd.direct.get? peer = some lane →
      LaneRecoverable s.binding s.producer peer lane := by
  intro peer lane hget
  obtain ⟨old, hold, ⟨rfl, -⟩ | ⟨rfl, -⟩⟩ := beginEnd_lane hget
  · exact h peer lane hold
  · exact (h peer old hold).clear

private theorem lanes_ended_beginEnd (hopen : s.endPhase = .open)
    (h : s.beginEnd.endPhase ≠ .open) :
    ∀ peer lane, s.beginEnd.direct.get? peer = some lane → lane.queue = [] := by
  intro peer lane hget
  obtain ⟨old, hold, ⟨rfl, hnot⟩ | ⟨rfl, -⟩⟩ := beginEnd_lane hget
  · simp [beginEnd, hnot, hopen] at h
  · rfl

theorem Recoverable.setVersion (h : s.Recoverable) (v : UInt64) :
    ({ s with version := v } : ExecutionState κ).Recoverable :=
  { h with proposal := fun p hp => { h.proposal p hp with } }

theorem recoverable_new {executionId : ExecId} {activation : Activation κ}
    {sharedState : SharedStateBytes} {localState : LocalStateBytes}
    (h : new executionId activation producer sharedState localState = .ok s) : s.Recoverable := by
  simp only [new, bind_eq_ok, ensure_eq_ok, pure_eq_ok] at h
  obtain ⟨binding, _, overhead, hover, _, hle, _, hprod, _, hstate, rfl⟩ := h
  refine ⟨hprod, rfl, fun _ => ?_, by simp, by simp [maxReceiptTraceEntries], by simpa using hle,
    hover, rfl, by simp, by simp, by simp [validateEnd, ExecutionStatus.isTerminal], rfl, rfl,
    .inr rfl, by simp [ExecutionStatus.isTerminal], by simp⟩
  simp [stepCursor, genesisCursor, hstate]

variable {t : ExecutionState κ} {event : Event}

theorem Recoverable.activate (h : s.Recoverable) (hop : s.activate = .ok t) : t.Recoverable := by
  obtain ⟨hstatus, hp, v, -, rfl⟩ := activate_eq_ok hop
  have hterm : s.status.isTerminal = false := by rw [hstatus]; rfl
  have hopen := h.endPhase_eq_open hterm
  refine Recoverable.setVersion (s := { s with status := .active })
    { h with
      ending := ?_, status := rfl, callout := .inl rfl, terminal := fun _ => hp
      proposal := fun p hp' => ?_ } v
  · simp [validateEnd, hopen, ExecutionStatus.isTerminal]
  · simp [hp] at hp'

theorem LaneRecoverable.push {binding : ExecutionBinding κ} {lane : DirectLane}
    {msg : Borsh.Bytes} {range : Option RangeAttachment}
    (h : LaneRecoverable binding producer peer lane) (hlen : lane.queue.length ≠ maxDirectQueue)
    (hseq : checkedAdd lane.lastQueued 1 = some seq)
    (hbudget : checkEffectBudget [.sendDirect peer msg range] = .ok ()) :
    LaneRecoverable binding producer peer
      { lane with lastQueued := seq, queue := lane.queue ++ [⟨seq, msg, range⟩] } := by
  have hle := h.length_le
  refine ⟨h.peer_ne, h.participant, ?_, h.queued.push hseq, ?_⟩
  · simp only [List.length_append, List.length_singleton]
    omega
  · intro entry he
    rcases List.mem_append.1 he with he | he
    · exact h.budget entry he
    · obtain rfl := List.mem_singleton.1 he
      exact hbudget

theorem Recoverable.applyLocal {lifecycle : Option Effect} (h : s.Recoverable)
    (hbudget : checkEffectBudget result.effects = .ok ())
    (hop : s.applyLocal event result (.ofShared κ result.sharedState) lifecycle = .ok t) :
    t.Recoverable := by
  obtain ⟨hp, hstatus, hpost, outgoing, direct, position, version, -, hout, hdir, -, -, rfl⟩ :=
    applyLocal_eq_ok hop
  have hterm : s.status.isTerminal = false := by rw [hstatus]; rfl
  have hopen := h.endPhase_eq_open hterm
  have hlanes : ∀ peer lane, direct.get? peer = some lane →
      LaneRecoverable s.binding s.producer peer lane := by
    refine queueDirect_induct ?_ h.lanes hdir
    intro recipient msg range seq hmem hne hpart lane hlane hlen hseq
    have hone := checkEffectBudget_sublist (List.singleton_sublist.2 hmem) hbudget
    have hold : LaneRecoverable s.binding s.producer recipient lane := by
      rcases hlane with hlane | rfl
      · exact hlane
      · exact ⟨hne, hpart, Nat.zero_le _, DirectLane.queued_of_nil rfl, by simp [DirectLane.default]⟩
    exact hold.push hlen hseq hone
  refine { h with
    shared_hash := hpost, outgoing := hout, lanes := hlanes
    lanes_ended := fun hc => absurd hopen hc, ending := ?_, status := rfl, callout := .inl rfl
    terminal := fun _ => hp, proposal := fun p hp' => ?_ }
  · simp [validateEnd, hopen, ExecutionStatus.isTerminal]
  · simp [hp] at hp'

theorem Recoverable.applyAgreed
    {indexed : List (UInt32 × Effect)} {lifecycle : Option Effect} {frame : Option ExecFrame}
    (h : s.Recoverable) (hbudget : checkEffectBudget result.effects = .ok ())
    (hindexed : indexedDispatchEffects result.effects = .ok indexed)
    (hop : s.applyAgreed event result (.ofShared κ result.sharedState) indexed lifecycle
      = .ok (t, frame)) : t.Recoverable := by
  obtain ⟨hp, hstatus, proposal, position, version, hstaged, -, hpos, -, rfl⟩ :=
    applyAgreed_eq_ok hindexed hop
  have hterm : s.status.isTerminal = false := by rw [hstatus]; rfl
  refine { h with terminal := fun hc => ?_, proposal := fun p hp' => ?_ }
  · simp [hterm] at hc
  · obtain rfl := Option.some.inj hp'
    obtain ⟨indexed', hindexed', heff⟩ := hstaged.effects_eq
    refine ⟨?_, ?_, ?_, hstaged.outgoing_valid, hstaged.budget, hstaged.callout_valid⟩
    · rw [hstaged.position_eq]
      exact hpos
    · rw [heff]
      exact validateEffects_filter hbudget hindexed' _
    · rw [hstaged.position_eq]
      exact hstaged.valid

theorem Recoverable.applyDispatch
    {pendingId : Option UInt64} {frame : Option ExecFrame} (h : s.Recoverable)
    (hop : s.applyDispatch event result pendingId = .ok (t, frame)) : t.Recoverable := by
  obtain ⟨hbudget, ⟨-, -, lifecycle, hlocal⟩ | ⟨-, -, indexed, lifecycle, hindexed, hagreed⟩⟩ :=
    applyDispatch_eq_ok hop
  · exact h.applyLocal hbudget hlocal
  · exact h.applyAgreed hbudget hindexed hagreed

theorem Recoverable.dropOutgoingHead (h : s.Recoverable) (hop : s.dropOutgoingHead = .ok t) :
    t.Recoverable := by
  obtain ⟨hp, v, -, rfl⟩ := dropOutgoingHead_eq_ok hop
  obtain ⟨hlen, hall⟩ := validateOutgoing_eq_ok.1 h.outgoing
  have hout : validateOutgoing s.outgoing.tail = .ok () := by
    refine validateOutgoing_eq_ok.2 ⟨?_, fun m hm => hall m (List.mem_of_mem_tail hm)⟩
    rw [List.length_tail]
    omega
  refine Recoverable.setVersion (s := { s with outgoing := s.outgoing.tail })
    { h with outgoing := hout, terminal := fun _ => hp, proposal := fun p hp' => ?_ } v
  simp [hp] at hp'

theorem ProposalRecoverable.addSignature {p signed : SharedProposal κ}
    {x : ParticipantStepSignature} (h : s.ProposalRecoverable p)
    (hx : p.addSignature s.binding (s.commitmentFor p) x = .ok signed) :
    s.ProposalRecoverable signed := by
  obtain ⟨hnew, hverified, rfl⟩ := SharedProposal.addSignature_eq_ok hx
  obtain ⟨hstaged, hsigned⟩ := validateProposal_eq_ok.1 h.valid
  refine ⟨h.position, h.effects, validateProposal_eq_ok.2 ⟨?_, ?_⟩, h.outgoing, h.budget, h.callout⟩
  · exact { hstaged with }
  · exact hsigned.insert hnew hverified

theorem Recoverable.setProposal {p q : SharedProposal κ} (h : s.Recoverable)
    (hp : s.proposal = some p) (hq : s.ProposalRecoverable q) :
    ({ s with proposal := some q } : ExecutionState κ).Recoverable := by
  refine { h with terminal := fun hc => ?_, proposal := fun p' hp' => ?_ }
  · have hnone := h.terminal hc
    rw [hp] at hnone
    cases hnone
  · obtain rfl := Option.some.inj hp'
    exact { hq with }

theorem Recoverable.certifyStep {certificate : StepCertificate} {committed : SharedProposal κ}
    (h : s.Recoverable) (hop : s.certifyStep certificate = .ok (t, committed)) : t.Recoverable := by
  obtain ⟨p, next, traceBytes, version, hp, hvalid, hcomm, hverify, hadv, hbudget, -, -, rfl⟩ :=
    certifyStep_eq_ok hop
  have hr := h.proposal p hp
  obtain ⟨hstaged, -⟩ := validateProposal_eq_ok.1 hvalid
  obtain ⟨bytes, hlen, rfl, hstep, hle⟩ := checkReceiptBudget_eq_ok hbudget
  have hpos := certifiedLength_pos hlen
  obtain ⟨next', hadv', hbind⟩ := hstaged.advances
  have hnext : next' = next := by
    have hsame : p.commitmentAt s.binding s.stepCursor = certificate.commitment := hcomm.symm
    rw [hsame, hadv] at hadv'
    exact (Except.ok.inj hadv').symm
  subst hnext
  obtain ⟨hadd, hstep_eq, -, -, hstate, hlink⟩ := StepCursor.advance_eq_ok.1 hadv
  have hsucc : next'.nextStep.toNat = s.agreedStep.toNat + 1 := by
    simpa [stepCursor] using checkedAdd_eq_some hadd
  have hne : next'.nextStep ≠ 0 := by
    intro h0
    simp [h0] at hsucc
  have hterm : s.status.isTerminal = false := by
    cases ht : s.status.isTerminal with
    | false => rfl
    | true => simp [h.terminal ht] at hp
  have hopen := h.endPhase_eq_open hterm
  have hcursor : next' = ⟨next'.nextStep, next'.stateHash, next'.chainHash⟩ := rfl
  refine Recoverable.setVersion (s := s.certified p certificate next' (s.traceBytes + bytes))
    ⟨h.producer, ?_, fun h0 => absurd h0 hne, ?_, ?_, hle, h.overhead, hr.outgoing, ?_, ?_, ?_, ?_,
      (ExecutionStatus.validateBinding_eq_ok.1 hbind).1, hr.callout, fun _ => rfl,
      fun _ hc => by cases hc⟩ version
  · have hpost := hstaged.postState_eq
    change StateHash.ofShared κ p.sharedState = next'.stateHash
    rw [← hpost, hstate, hcomm]
    rfl
  · change next'.nextStep = 0 ↔ s.traceBytes + bytes = 0
    constructor
    · exact fun h0 => absurd h0 hne
    · intro h0
      omega
  · change next'.nextStep.toNat ≤ maxReceiptTraceEntries
    omega
  · exact lanes_beginEnd (s := { s with status := p.status }) h.lanes
  · exact fun hc => lanes_ended_beginEnd (s := { s with status := p.status }) hopen hc
  · exact validateEnd_beginEnd (s := { s with status := p.status }) hopen
  · change (do
      ensure (checkedAdd certificate.commitment.step 1 = some next'.nextStep ∧
        certificate.commitment.postState = next'.stateHash ∧
        certificate.commitment.linkHash κ = next'.chainHash) _
      certificate.verify s.binding) = .ok ()
    simp only [bind_eq_ok, ensure_eq_ok]
    rw [hstep_eq]
    exact ⟨(), ⟨hadd, hstate.symm, hlink.symm⟩, hverify⟩

theorem Recoverable.addStepSignature {x : ParticipantStepSignature}
    {committed : Option (SharedProposal κ)} (h : s.Recoverable)
    (hop : s.addStepSignature x = .ok (t, committed)) : t.Recoverable := by
  obtain ⟨p, signed, hp, hsigned, hcase⟩ := addStepSignature_eq_ok hop
  have hnext := h.setProposal hp ((h.proposal p hp).addSignature hsigned)
  rcases hcase with ⟨-, -, v, -, rfl⟩ | ⟨-, certificate, done, -, -, hcert⟩
  · exact hnext.setVersion v
  · exact hnext.certifyStep hcert

theorem Recoverable.stop {occurrence : AbortOccurrence} (h : s.Recoverable)
    (hop : s.stop occurrence = .ok t) : t.Recoverable := by
  obtain ⟨hsession, hmem, hsig, hcursor, hterm, -, v, -, rfl⟩ := stop_eq_ok hop
  have hopen := h.endPhase_eq_open hterm
  simp only [AbortOccurrence.validateForSession, bind_eq_ok, ensure_eq_ok] at hsession
  obtain ⟨_, hshape, _, hid, -⟩ := hsession
  refine Recoverable.setVersion (s := s.stoppedBy occurrence)
    { h with
      lanes := ?_, lanes_ended := ?_, ending := ?_, status := ?_, callout := .inr rfl
      terminal := fun _ => rfl, proposal := fun _ hc => by cases hc } v
  · exact lanes_beginEnd (s := { s with status := .stopped (.authenticated occurrence) }) h.lanes
  · exact fun hc => lanes_ended_beginEnd
      (s := { s with status := .stopped (.authenticated occurrence) }) hopen hc
  · exact validateEnd_beginEnd
      (s := { s with status := .stopped (.authenticated occurrence) }) hopen
  · change (do
      (StopCause.authenticated occurrence).validate
      (StopCause.authenticated occurrence).validateBinding s.binding s.stepCursor) = .ok ()
    simp only [StopCause.validate, StopCause.validateBinding, bind_eq_ok, ensure_eq_ok,
      mapError_eq_ok]
    exact ⟨(), hshape, (), ⟨hid, hcursor, hmem⟩, true, hsig, rfl⟩

theorem Recoverable.publishReceipt {artifact : ReceiptArtifact κ} (h : s.Recoverable)
    (hop : s.publishReceipt artifact = .ok t) : t.Recoverable := by
  obtain ⟨-, status, v, hstatus, -, rfl⟩ := publishReceipt_eq_ok hop
  have hkey : s.status.isTerminal = true ∧ status.isTerminal = true ∧
      status.unpublished = s.status.unpublished := by
    rcases publishedStatus_eq_ok hstatus with ⟨outcome, hs, rfl⟩ | ⟨cause, hs, rfl⟩ <;>
      simp [hs, ExecutionStatus.isTerminal, ExecutionStatus.unpublished]
  obtain ⟨hterm, hterm', hsame⟩ := hkey
  have hbind := h.status
  rw [← hsame] at hbind
  have hnone := h.terminal hterm
  refine Recoverable.setVersion (s := { s with status := status, callout := none })
    { h with
      ending := ?_, status := hbind, callout := .inr rfl, terminal := fun _ => hnone
      proposal := fun p hp => by simp [hnone] at hp } v
  have he := h.ending
  simp only [validateEnd, hterm, hterm'] at he ⊢
  exact he

theorem Recoverable.setLane (lane : DirectLane) (h : s.Recoverable)
    (hlane : LaneRecoverable s.binding s.producer peer lane)
    (hended : s.endPhase ≠ .open → lane.queue = []) :
    ({ s with direct := s.direct.insert peer lane } : ExecutionState κ).Recoverable := by
  refine { h with
    lanes := fun q l hget => ?_, lanes_ended := fun hc q l hget => ?_
    proposal := fun p hp => { h.proposal p hp with } }
  · rcases OrdMap.get?_insert_cases hget with ⟨rfl, rfl⟩ | ⟨-, hget⟩
    · exact hlane
    · exact h.lanes q l hget
  · rcases OrdMap.get?_insert_cases hget with ⟨rfl, rfl⟩ | ⟨-, hget⟩
    · exact hended hc
    · exact h.lanes_ended hc q l hget

theorem Recoverable.lane (h : s.Recoverable) (hne : peer ≠ s.producer)
    (hpart : s.binding.isParticipant peer = true) :
    LaneRecoverable s.binding s.producer peer (s.lane peer) ∧
      (s.endPhase ≠ .open → (s.lane peer).queue = []) := by
  unfold ExecutionState.lane
  cases hget : s.direct.get? peer with
  | none => exact ⟨⟨hne, hpart, Nat.zero_le _, DirectLane.queued_of_nil rfl,
      by simp [DirectLane.default]⟩, fun _ => rfl⟩
  | some lane => exact ⟨h.lanes peer lane hget, fun hc => h.lanes_ended hc peer lane hget⟩

theorem Recoverable.recordDirect {source : PeerId} (h : s.Recoverable)
    (hop : s.recordDirect source seq = .ok t) : t.Recoverable := by
  obtain ⟨hne, hpart, -, v, -, rfl⟩ := recordDirect_eq_ok hop
  obtain ⟨hlane, hended⟩ := h.lane hne hpart
  refine (h.setLane { s.lane source with lastApplied := seq } ?_ hended).setVersion v
  exact ⟨hne, hpart, hlane.length_le, ⟨hlane.queued.length_le, hlane.queued.seqs⟩, hlane.budget⟩

theorem Recoverable.ackDirect {recipient : PeerId} (h : s.Recoverable)
    (hop : s.ackDirect recipient seq = .ok (some t)) : t.Recoverable := by
  obtain ⟨hne, hpart, v, -, rfl⟩ := ackDirect_eq_ok hop
  obtain ⟨hlane, hended⟩ := h.lane hne hpart
  refine (h.setLane _ ⟨hne, hpart, ?_, hlane.queued.ack seq, ?_⟩ ?_).setVersion v
  · exact (List.length_filter_le _ _).trans hlane.length_le
  · exact fun entry he => hlane.budget entry (List.mem_of_mem_filter he)
  · intro hc
    simp [hended hc]

theorem Recoverable.setPhase (phase : EndPhase) (h : s.Recoverable) (hs : s.endPhase ≠ .open)
    (hend : ({ s with endPhase := phase } : ExecutionState κ).validateEnd = .ok ()) :
    ({ s with endPhase := phase } : ExecutionState κ).Recoverable :=
  { h with
    lanes_ended := fun _ => h.lanes_ended hs, ending := hend
    proposal := fun p hp => { h.proposal p hp with } }

theorem Recoverable.unconfirmed {unconfirmed : Finset PeerId} (h : s.Recoverable)
    (hu : s.endPhase.unconfirmed = some unconfirmed) :
    s.status.isTerminal = true ∧
      ∀ peer ∈ unconfirmed, peer ≠ s.producer ∧ s.binding.isParticipant peer = true := by
  have he := h.ending
  cases hp : s.endPhase with
  | «open» => simp [hp, EndPhase.unconfirmed] at hu
  | ending u =>
    simp only [hp, EndPhase.unconfirmed, Option.some.injEq] at hu
    simp only [validateEnd, hp, bind_eq_ok, ensure_eq_ok] at he
    obtain ⟨_, ht, _, _, hall⟩ := he
    exact ⟨ht, hu ▸ hall⟩
  | ended u =>
    simp only [hp, EndPhase.unconfirmed, Option.some.injEq] at hu
    simp only [validateEnd, hp, bind_eq_ok, ensure_eq_ok] at he
    obtain ⟨_, ht, hall⟩ := he
    exact ⟨ht, hu ▸ hall⟩

theorem Recoverable.confirmEnd (h : s.Recoverable) (hop : s.confirmEnd peer = .ok (some t)) :
    t.Recoverable := by
  obtain ⟨unconfirmed, v, phase, hu, -, -, rfl, hphase⟩ := confirmEnd_eq_ok hop
  obtain ⟨hterm, hall⟩ := h.unconfirmed hu
  have hopen := h.endPhase_ne_open hterm
  have hall' : ∀ p ∈ unconfirmed.erase peer, p ≠ s.producer ∧ s.binding.isParticipant p = true :=
    fun p hp => hall p (Finset.mem_of_mem_erase hp)
  rcases hphase with rfl | ⟨hne, rfl⟩
  · refine (h.setPhase (.ended (unconfirmed.erase peer)) hopen ?_).setVersion v
    simp only [validateEnd, bind_eq_ok, ensure_eq_ok]
    exact ⟨(), hterm, hall'⟩
  · refine (h.setPhase (.ending (unconfirmed.erase peer)) hopen ?_).setVersion v
    simp only [validateEnd, bind_eq_ok, ensure_eq_ok]
    exact ⟨(), hterm, (), hne, hall'⟩

theorem Recoverable.expireEnd (h : s.Recoverable) (hop : s.expireEnd = .ok t) : t.Recoverable := by
  obtain ⟨unconfirmed, v, hp, -, rfl⟩ := expireEnd_eq_ok hop
  obtain ⟨hterm, hall⟩ := h.unconfirmed (by rw [hp]; rfl)
  refine (h.setPhase (.ended unconfirmed) (h.endPhase_ne_open hterm) ?_).setVersion v
  simp only [validateEnd, bind_eq_ok, ensure_eq_ok]
  exact ⟨(), hterm, hall⟩

end ExecutionState

/-! ## Runs -/

variable (κ) in
/-- One call of a transition of the aggregate, with its arguments. -/
inductive Op where
  | activate
  | applyDispatch (event : Event) (result : DispatchResult κ) (pendingId : Option UInt64)
  | dropOutgoingHead
  | addStepSignature (signature : ParticipantStepSignature)
  | certifyStep (certificate : StepCertificate)
  | stop (occurrence : AbortOccurrence)
  | publishReceipt (artifact : ReceiptArtifact κ)
  | recordDirect (source : PeerId) (seq : UInt64)
  | ackDirect (recipient : PeerId) (seq : UInt64)
  | confirmEnd (peer : PeerId)
  | expireEnd

namespace Op

/-- The aggregate after a successful call, or the error of the call. -/
def apply (s : ExecutionState κ) : Op κ → Except ProtocolError (ExecutionState κ)
  | .activate => s.activate
  | .applyDispatch event result pendingId => (·.1) <$> s.applyDispatch event result pendingId
  | .dropOutgoingHead => s.dropOutgoingHead
  | .addStepSignature signature => (·.1) <$> s.addStepSignature signature
  | .certifyStep certificate => (·.1) <$> s.certifyStep certificate
  | .stop occurrence => s.stop occurrence
  | .publishReceipt artifact => s.publishReceipt artifact
  | .recordDirect source seq => s.recordDirect source seq
  | .ackDirect recipient seq => (·.getD s) <$> s.ackDirect recipient seq
  | .confirmEnd peer => (·.getD s) <$> s.confirmEnd peer
  | .expireEnd => s.expireEnd

def step (s : ExecutionState κ) (op : Op κ) : ExecutionState κ :=
  match op.apply s with
  | .ok t => t
  | .error _ => s

def run (s : ExecutionState κ) (ops : List (Op κ)) : ExecutionState κ := ops.foldl step s

variable {s t : ExecutionState κ} {op : Op κ}

theorem apply_recoverable (h : s.Recoverable)
    (ht : op.apply s = .ok t) : t.Recoverable := by
  cases op with
  | activate => exact h.activate ht
  | applyDispatch event result pendingId =>
    obtain ⟨⟨u, frame⟩, hu, rfl⟩ := map_eq_ok.1 ht
    exact h.applyDispatch hu
  | dropOutgoingHead => exact h.dropOutgoingHead ht
  | addStepSignature signature =>
    obtain ⟨⟨u, committed⟩, hu, rfl⟩ := map_eq_ok.1 ht
    exact h.addStepSignature hu
  | certifyStep certificate =>
    obtain ⟨⟨u, committed⟩, hu, rfl⟩ := map_eq_ok.1 ht
    exact h.certifyStep hu
  | stop occurrence => exact h.stop ht
  | publishReceipt artifact => exact h.publishReceipt ht
  | recordDirect source seq => exact h.recordDirect ht
  | ackDirect recipient seq =>
    obtain ⟨u, hu, rfl⟩ := map_eq_ok.1 ht
    cases u with
    | none => exact h
    | some u => exact h.ackDirect hu
  | confirmEnd peer =>
    obtain ⟨u, hu, rfl⟩ := map_eq_ok.1 ht
    cases u with
    | none => exact h
    | some u => exact h.confirmEnd hu
  | expireEnd => exact h.expireEnd ht

/-- The calls that move a queue, a cursor or the end only. -/
def isQuiet : Op κ → Bool
  | .dropOutgoingHead | .recordDirect .. | .ackDirect .. | .confirmEnd _ | .expireEnd => true
  | _ => false

structure Rests (s t : ExecutionState κ) : Prop where
  status : t.status = s.status
  callout : t.callout = s.callout
  proposal : t.proposal = s.proposal
  binding : t.binding = s.binding
  producer : t.producer = s.producer
  executionId : t.executionId = s.executionId
  version : t.version = s.version ∨ checkedAdd s.version 1 = some t.version

theorem rests (hquiet : op.isQuiet = true)
    (ht : op.apply s = .ok t) : Rests s t := by
  cases op with
  | activate | applyDispatch _ _ _ | addStepSignature _ | certifyStep _ | stop _ | publishReceipt _ =>
    cases hquiet
  | dropOutgoingHead =>
    obtain ⟨-, v, hv, rfl⟩ := ExecutionState.dropOutgoingHead_eq_ok ht
    exact ⟨rfl, rfl, rfl, rfl, rfl, rfl, .inr hv⟩
  | recordDirect source seq =>
    obtain ⟨-, -, -, v, hv, rfl⟩ := ExecutionState.recordDirect_eq_ok ht
    exact ⟨rfl, rfl, rfl, rfl, rfl, rfl, .inr hv⟩
  | ackDirect recipient seq =>
    obtain ⟨u, hu, rfl⟩ := map_eq_ok.1 ht
    cases u with
    | none => exact ⟨rfl, rfl, rfl, rfl, rfl, rfl, .inl rfl⟩
    | some u =>
      obtain ⟨-, -, v, hv, rfl⟩ := ExecutionState.ackDirect_eq_ok hu
      exact ⟨rfl, rfl, rfl, rfl, rfl, rfl, .inr hv⟩
  | confirmEnd peer =>
    obtain ⟨u, hu, rfl⟩ := map_eq_ok.1 ht
    cases u with
    | none => exact ⟨rfl, rfl, rfl, rfl, rfl, rfl, .inl rfl⟩
    | some u =>
      obtain ⟨_, v, phase, -, -, hv, rfl, -⟩ := ExecutionState.confirmEnd_eq_ok hu
      exact ⟨rfl, rfl, rfl, rfl, rfl, rfl, .inr hv⟩
  | expireEnd =>
    obtain ⟨_, v, -, hv, rfl⟩ := ExecutionState.expireEnd_eq_ok ht
    exact ⟨rfl, rfl, rfl, rfl, rfl, rfl, .inr hv⟩

theorem apply_publishedReceiptId {id : ReceiptId}
    (ht : op.apply s = .ok t) (hid : t.status.publishedReceiptId = some id) :
    s.status.publishedReceiptId = some id ∨
      ∃ artifact, op = .publishReceipt artifact ∧ artifact.receiptId = id := by
  have hcertified : ∀ {s t : ExecutionState κ} {certificate committed},
      s.certifyStep certificate = .ok (t, committed) → t.status.publishedReceiptId = none := by
    intro s t certificate committed h
    obtain ⟨p, next, bytes, v, -, hvalid, -, -, -, -, -, -, rfl⟩ :=
      ExecutionState.certifyStep_eq_ok h
    exact ExecutionStatus.publishedReceiptId_of_proposal
      (validateProposal_eq_ok.1 hvalid).1.status_valid
  cases op with
  | activate =>
    obtain ⟨-, -, v, -, rfl⟩ := ExecutionState.activate_eq_ok ht
    cases hid
  | applyDispatch event result pendingId =>
    obtain ⟨⟨u, frame⟩, hu, rfl⟩ := map_eq_ok.1 ht
    obtain ⟨-, ⟨-, -, lifecycle, hlocal⟩ | ⟨-, -, indexed, lifecycle, hindexed, hagreed⟩⟩ :=
      ExecutionState.applyDispatch_eq_ok hu
    · obtain ⟨-, -, -, _, _, _, _, -, -, -, -, -, rfl⟩ := ExecutionState.applyLocal_eq_ok hlocal
      cases hid
    · obtain ⟨-, -, _, _, _, -, -, -, -, rfl⟩ := ExecutionState.applyAgreed_eq_ok hindexed hagreed
      exact .inl hid
  | addStepSignature signature =>
    obtain ⟨⟨u, committed⟩, hu, rfl⟩ := map_eq_ok.1 ht
    obtain ⟨p, signed, -, -, ⟨-, -, v, -, rfl⟩ | ⟨-, certificate, done, -, -, hcert⟩⟩ :=
      ExecutionState.addStepSignature_eq_ok hu
    · exact .inl hid
    · rw [hcertified hcert] at hid
      cases hid
  | certifyStep certificate =>
    obtain ⟨⟨u, committed⟩, hu, rfl⟩ := map_eq_ok.1 ht
    rw [hcertified hu] at hid
    cases hid
  | stop occurrence =>
    obtain ⟨-, -, -, -, -, -, v, -, rfl⟩ := ExecutionState.stop_eq_ok ht
    cases hid
  | publishReceipt artifact =>
    obtain ⟨-, status, v, hstatus, -, rfl⟩ := ExecutionState.publishReceipt_eq_ok ht
    rcases ExecutionState.publishedStatus_eq_ok hstatus with ⟨outcome, -, rfl⟩ | ⟨cause, -, rfl⟩
    · exact .inr ⟨artifact, rfl, Option.some.inj hid⟩
    · exact .inr ⟨artifact, rfl, Option.some.inj hid⟩
  | dropOutgoingHead | recordDirect _ _ | ackDirect _ _ | confirmEnd _ | expireEnd =>
    exact .inl ((rests rfl ht).status ▸ hid)

/-- A published artifact has an identity other than the reserved zero. -/
def PublishesNonzero (op : Op κ) : Prop :=
  ∀ artifact, op = .publishReceipt artifact → artifact.receiptId ≠ 0

def Sound (s : ExecutionState κ) : Prop :=
  s.Recoverable ∧ ∀ id, s.status.publishedReceiptId = some id → id ≠ 0

private theorem step_sound (hop : op.PublishesNonzero) (h : Sound s) : Sound (op.step s) := by
  unfold step
  split
  · rename_i t ht
    refine ⟨apply_recoverable h.1 ht, fun id hid => ?_⟩
    rcases apply_publishedReceiptId ht hid with hold | ⟨artifact, rfl, rfl⟩
    · exact h.2 id hold
    · exact hop artifact rfl
  · exact h

theorem run_sound {ops : List (Op κ)} (hops : ∀ op ∈ ops, op.PublishesNonzero) (h : Sound s) :
    Sound (run s ops) := by
  induction ops generalizing s with
  | nil => exact h
  | cons op ops ih =>
    have hstep := step_sound (hops op (by simp)) h
    exact ih (fun op' hop' => hops op' (by simp [hop'])) hstep

theorem sound_new {executionId : ExecId} {activation : Activation κ}
    {sharedState : SharedStateBytes} {localState : LocalStateBytes}
    (h : ExecutionState.new executionId activation producer sharedState localState = .ok s) :
    Sound s := by
  refine ⟨ExecutionState.recoverable_new h, fun id hid => ?_⟩
  simp only [ExecutionState.new, bind_eq_ok, pure_eq_ok] at h
  obtain ⟨_, _, _, _, _, _, _, _, _, _, rfl⟩ := h
  cases hid

end Op

/-- Every aggregate reached from a new one by any sequence of calls passes the
checks of a restart. -/
theorem validateRecovered_run {executionId : ExecId} {activation : Activation κ}
    {producer : PeerId} {sharedState : SharedStateBytes} {localState : LocalStateBytes}
    {s : ExecutionState κ}
    (hnew : ExecutionState.new executionId activation producer sharedState localState = .ok s)
    (ops : List (Op κ)) (hops : ∀ op ∈ ops, op.PublishesNonzero) :
    (Op.run s ops).validateRecovered = .ok () := by
  obtain ⟨hrec, hid⟩ := Op.run_sound hops (Op.sound_new hnew)
  exact hrec.validateRecovered_eq_ok hid

namespace Sample

def startSig (n : UInt8) : StepSig :=
  ⟨0, referenceBytes 48 (if n = 1 then 628261983862377254 else 1138100667352102205)⟩

def quit : AbortOccurrence :=
  ⟨abortOccurrenceDomain, abortOccurrenceVersion, binding.sessionId, peer 1, .abort, 0, "done",
    ⟨1, offerData.initialState, referenceBytes 32 1397338461132313707⟩,
    referenceBytes 64 1991525678250394660⟩

/-- The first participant starts the session with a callout, certifies the start, stops and
publishes; the expiry before that fails. -/
def publishedOps (artifact : ReceiptArtifact referencePrimitives) : List (Op referencePrimitives) :=
  [.activate, .expireEnd,
    .applyDispatch (.sessionStarted bothPeers) ⟨shared, localState, [], none, some ⟨0, [1]⟩⟩ none,
    .addStepSignature ⟨peer 1, startSig 1⟩, .addStepSignature ⟨peer 2, startSig 2⟩, .stop quit,
    .publishReceipt artifact]

def quitBody : ReceiptBody referencePrimitives :=
  ⟨⟨activation, .stopped (.authenticated quit)⟩, [], offerData.params.bytes,
    [⟨traceFormatVersion, 0, .sessionStarted bothPeers, offerData.initialState,
      offerData.initialState, none,
      ⟨referenceAggregate [(startSig 1).sig, (startSig 2).sig], ⟨[3]⟩⟩⟩]⟩

theorem exists_published : ∃ artifact, (∀ op ∈ publishedOps artifact, op.PublishesNonzero) ∧
    (Op.run (state 1) (publishedOps artifact)).status =
      .stoppedPublished (.authenticated quit) artifact.receiptId := by
  obtain ⟨artifact, -, hnonzero, hstatus⟩ : ∃ artifact,
      ReceiptArtifact.new quitBody = .ok artifact ∧ artifact.receiptId ≠ 0 ∧
        (Op.run (state 1) (publishedOps artifact)).status =
          .stoppedPublished (.authenticated quit) artifact.receiptId :=
    exists_ok_of_any (by decide +kernel)
  refine ⟨artifact, ?_, hstatus⟩
  rintro op hop published rfl
  obtain rfl : published = artifact := by simpa [publishedOps] using hop
  exact hnonzero

end Sample

open Sample in
theorem validateRecovered_run_published : ∃ artifact,
    (Op.run (state 1) (publishedOps artifact)).status =
        .stoppedPublished (.authenticated quit) artifact.receiptId ∧
      (Op.run (state 1) (publishedOps artifact)).validateRecovered = .ok () := by
  obtain ⟨artifact, hops, hstatus⟩ := exists_published
  exact ⟨artifact, hstatus, validateRecovered_run (new_eq_ok (by decide +kernel)) _ hops⟩

end Arena0
