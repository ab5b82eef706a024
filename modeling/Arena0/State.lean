import Arena0.Proposal
import Arena0.OrdMap

/-!
# The durable execution aggregate

The persisted state of one execution of one participant, the staged proposal it
may hold, the end handshake, direct lanes, and the frames participants exchange.
-/

namespace Arena0

open Borsh Fallible

variable {κ : Primitives}

/-! ## Direct lanes and frames -/

structure DirectEntry where
  seq : UInt64
  msg : Bytes
  range : Option RangeAttachment
  deriving DecidableEq

structure DirectLane where
  lastQueued : UInt64
  queue : List DirectEntry
  lastApplied : UInt64
  deriving DecidableEq

def DirectLane.default : DirectLane := ⟨0, [], 0⟩

inductive DirectArrival where
  | duplicate | next | gap
  deriving DecidableEq

inductive EndPhase where
  | «open»
  | ending (unconfirmed : Finset PeerId)
  | ended (unconfirmed : Finset PeerId)
  deriving DecidableEq

def EndPhase.unconfirmed : EndPhase → Option (Finset PeerId)
  | .open => none
  | .ending unconfirmed | .ended unconfirmed => some unconfirmed

inductive ExecFrame where
  | message (commitment : StepCommitment) (data : Bytes)
  | stepSignature (commitment : StepCommitment) (signature : BlsSignature)
  | stepCertificate (certificate : StepCertificate)
  | direct (seq : UInt64) (msg : Bytes) (attachment : Option Bytes)
  | abort (occurrence : AbortOccurrence)
  deriving DecidableEq

/-! ## The aggregate -/

variable (κ) in
/-- The one durable execution aggregate. -/
structure ExecutionState where
  executionId : ExecId
  binding : ExecutionBinding κ
  producer : PeerId
  status : ExecutionStatus κ
  version : UInt64
  eventPosition : UInt64
  agreedStep : UInt64
  /-- Sum of the encodings of the certified entries, agreements included.  Every
  sum over it is checked against the receipt bound, which no overflow passes. -/
  traceBytes : ℕ
  /-- Derived from the binding, never persisted. -/
  receiptOverhead : ℕ
  agreedState : StateHash
  agreedLink : FixedBytes 32
  lastCertificate : Option StepCertificate
  endPhase : EndPhase
  direct : OrdMap PeerId DirectLane
  outgoing : List Bytes
  sharedState : SharedStateBytes
  localState : LocalStateBytes
  proposal : Option (SharedProposal κ)
  callout : Option OpenCallout
  deriving DecidableEq

namespace ExecutionState

def stepCursor (s : ExecutionState κ) : StepCursor := ⟨s.agreedStep, s.agreedState, s.agreedLink⟩

/-- An active execution with an open callout projects as waiting. -/
def lifecycle (s : ExecutionState κ) : ExecLifecycle :=
  if s.status = .active ∧ s.callout.isSome = true then .waiting else s.status.lifecycle

def commitmentFor (s : ExecutionState κ) (proposal : SharedProposal κ) : StepCommitment :=
  .forEntry κ s.binding.sessionId proposal.entry s.agreedLink

def proposalCommitment (s : ExecutionState κ) : Option StepCommitment :=
  s.proposal.map s.commitmentFor

def nextVersion (s : ExecutionState κ) : Except ProtocolError UInt64 :=
  okOr (checkedAdd s.version 1) .versionExhausted

def bumpVersion (s : ExecutionState κ) : Except ProtocolError (ExecutionState κ) := do
  let version ← s.nextVersion
  return { s with version := version }

variable {s t : ExecutionState κ}

theorem bumpVersion_eq_ok :
    s.bumpVersion = .ok t ↔
      ∃ v, checkedAdd s.version 1 = some v ∧ t = { s with version := v } := by
  simp only [bumpVersion, nextVersion, bind_eq_ok, okOr_eq_ok, pure_eq_ok]
  exact exists_congr fun v => and_congr_right fun _ => eq_comm

/-! ### Direct lanes -/

def lane (s : ExecutionState κ) (peer : PeerId) : DirectLane :=
  (s.direct.get? peer).getD .default

def directQueue (s : ExecutionState κ) (peer : PeerId) : List DirectEntry := (s.lane peer).queue

def directArrival (s : ExecutionState κ) (source : PeerId) (seq : UInt64) : DirectArrival :=
  let last := (s.lane source).lastApplied
  if seq ≤ last then .duplicate
  else if checkedAdd last 1 = some seq then .next
  else .gap

/-- Record an applied or discarded frame; only the next sequence is legal. -/
def recordDirect (s : ExecutionState κ) (source : PeerId) (seq : UInt64) :
    Except ProtocolError (ExecutionState κ) := do
  ensure (source ≠ s.producer ∧ s.binding.isParticipant source = true)
    (.unknownParticipant source)
  ensure (s.directArrival source seq = .next) (.directOutOfOrder source seq)
  let version ← s.nextVersion
  return { s with
    direct := s.direct.insert source { s.lane source with lastApplied := seq }
    version := version }

theorem recordDirect_eq_ok {source : PeerId} {seq : UInt64}
    (h : s.recordDirect source seq = .ok t) :
    source ≠ s.producer ∧ s.binding.isParticipant source = true ∧
      s.directArrival source seq = .next ∧ ∃ v, checkedAdd s.version 1 = some v ∧
        t = { s with
          direct := s.direct.insert source { s.lane source with lastApplied := seq }
          version := v } := by
  simp only [recordDirect, nextVersion, bind_eq_ok, ensure_eq_ok, okOr_eq_ok, pure_eq_ok] at h
  obtain ⟨_, ⟨hne, hpart⟩, _, harr, v, hv, rfl⟩ := h
  exact ⟨hne, hpart, harr, v, hv, rfl⟩

/-- Drop acknowledged entries; a duplicate acknowledgement changes nothing. -/
def ackDirect (s : ExecutionState κ) (recipient : PeerId) (seq : UInt64) :
    Except ProtocolError (Option (ExecutionState κ)) := do
  ensure (recipient ≠ s.producer ∧ s.binding.isParticipant recipient = true)
    (.unknownParticipant recipient)
  if (s.directQueue recipient).any (·.seq ≤ seq) then do
    let version ← s.nextVersion
    let lane := s.lane recipient
    return some { s with
      direct := s.direct.insert recipient
        { lane with queue := lane.queue.filter (seq < ·.seq) }
      version := version }
  else return none

theorem ackDirect_eq_ok {recipient : PeerId} {seq : UInt64}
    (h : s.ackDirect recipient seq = .ok (some t)) :
    recipient ≠ s.producer ∧ s.binding.isParticipant recipient = true ∧
      ∃ v, checkedAdd s.version 1 = some v ∧
        t = { s with
          direct := s.direct.insert recipient
            { s.lane recipient with queue := (s.lane recipient).queue.filter (seq < ·.seq) }
          version := v } := by
  simp only [ackDirect, bind_eq_ok, ensure_eq_ok] at h
  obtain ⟨_, ⟨hne, hpart⟩, h⟩ := h
  split at h
  · simp only [nextVersion, bind_eq_ok, okOr_eq_ok, pure_eq_ok, Option.some.injEq] at h
    obtain ⟨v, hv, rfl⟩ := h
    exact ⟨hne, hpart, v, hv, rfl⟩
  · cases h

/-! ### The end handshake -/

def others (s : ExecutionState κ) : Finset PeerId :=
  (s.binding.participants.filter (· ≠ s.producer)).toFinset

/-- The status became terminal and the handshake has not begun. -/
def entersEnd (s : ExecutionState κ) : Prop := s.status.isTerminal = true ∧ s.endPhase = .open

instance (s : ExecutionState κ) : Decidable s.entersEnd := inferInstanceAs (Decidable (_ ∧ _))

def beginEnd (s : ExecutionState κ) : ExecutionState κ :=
  { s with
    endPhase := if s.entersEnd then .ending s.others else s.endPhase
    direct :=
      if s.entersEnd then s.direct.mapValues fun lane => { lane with queue := [] } else s.direct }

def removeUnconfirmed (unconfirmed : Finset PeerId) (peer : PeerId)
    (phase : Finset PeerId → EndPhase) : Option EndPhase :=
  if peer ∈ unconfirmed then
    some (if unconfirmed.erase peer = ∅ then .ended ∅ else phase (unconfirmed.erase peer))
  else none

/-- The phase after a confirmation, or none when the peer was confirmed before. -/
def confirmedPhase (phase : EndPhase) (peer : PeerId) : Except ProtocolError (Option EndPhase) :=
  match phase with
  | .open => .error .invalidTerminalStatus
  | .ending unconfirmed => .ok (removeUnconfirmed unconfirmed peer .ending)
  | .ended unconfirmed => .ok (removeUnconfirmed unconfirmed peer .ended)

/-- Confirm a remote participant; a duplicate confirmation changes nothing. -/
def confirmEnd (s : ExecutionState κ) (peer : PeerId) :
    Except ProtocolError (Option (ExecutionState κ)) := do
  ensure (peer ≠ s.producer ∧ s.binding.isParticipant peer = true) .invalidTerminalStatus
  let phase ← confirmedPhase s.endPhase peer
  match phase with
  | none => return none
  | some phase => do
    let next ← { s with endPhase := phase }.bumpVersion
    return some next

/-- Close the confirmation window, retaining every silent peer. -/
def expireEnd (s : ExecutionState κ) : Except ProtocolError (ExecutionState κ) :=
  match s.endPhase with
  | .ending unconfirmed => { s with endPhase := .ended unconfirmed }.bumpVersion
  | _ => .error .invalidTerminalStatus

/-- A confirmation removes the peer from the unconfirmed set; the phase stays
ending only while someone is left. -/
theorem confirmEnd_eq_ok {peer : PeerId} (h : s.confirmEnd peer = .ok (some t)) :
    ∃ unconfirmed v phase, s.endPhase.unconfirmed = some unconfirmed ∧ peer ∈ unconfirmed ∧
      checkedAdd s.version 1 = some v ∧ t = { s with endPhase := phase, version := v } ∧
      (phase = .ended (unconfirmed.erase peer) ∨
        unconfirmed.erase peer ≠ ∅ ∧ phase = .ending (unconfirmed.erase peer)) := by
  have hremove : ∀ {unconfirmed make phase}, removeUnconfirmed unconfirmed peer make = some phase →
      peer ∈ unconfirmed ∧ (phase = .ended (unconfirmed.erase peer) ∨
        unconfirmed.erase peer ≠ ∅ ∧ phase = make (unconfirmed.erase peer)) := by
    intro unconfirmed make phase hr
    unfold removeUnconfirmed at hr
    split at hr
    · rename_i hmem
      cases hr
      refine ⟨hmem, ?_⟩
      split
      · rename_i hempty
        exact .inl (by rw [hempty])
      · rename_i hne
        exact .inr ⟨hne, rfl⟩
    · cases hr
  simp only [confirmEnd, bind_eq_ok, ensure_eq_ok] at h
  obtain ⟨_, _, result, hphase, h⟩ := h
  cases result with
  | none => cases h
  | some phase =>
    simp only [bind_eq_ok, bumpVersion_eq_ok, pure_eq_ok, Option.some.injEq] at h
    obtain ⟨_, ⟨v, hv, rfl⟩, rfl⟩ := h
    cases hp : s.endPhase with
    | «open» => simp [hp, confirmedPhase] at hphase
    | ending unconfirmed =>
      simp only [hp, confirmedPhase, Except.ok.injEq] at hphase
      obtain ⟨hmem, hcase⟩ := hremove hphase
      exact ⟨unconfirmed, v, phase, rfl, hmem, hv, rfl, hcase⟩
    | ended unconfirmed =>
      simp only [hp, confirmedPhase, Except.ok.injEq] at hphase
      obtain ⟨hmem, hcase⟩ := hremove hphase
      refine ⟨unconfirmed, v, phase, rfl, hmem, hv, rfl, .inl ?_⟩
      rcases hcase with hcase | ⟨-, hcase⟩ <;> exact hcase

theorem confirmEnd_eq_none {peer : PeerId} (h : s.confirmEnd peer = .ok none) :
    ∃ unconfirmed, s.endPhase.unconfirmed = some unconfirmed ∧ peer ∉ unconfirmed := by
  have hremove : ∀ {unconfirmed make}, removeUnconfirmed unconfirmed peer make = none →
      peer ∉ unconfirmed := by
    intro unconfirmed make hr
    unfold removeUnconfirmed at hr
    split at hr
    · cases hr
    · assumption
  simp only [confirmEnd, bind_eq_ok, ensure_eq_ok] at h
  obtain ⟨_, _, result, hphase, h⟩ := h
  cases result with
  | some phase => simp at h
  | none =>
    cases hp : s.endPhase with
    | «open» => simp [hp, confirmedPhase] at hphase
    | ending unconfirmed | ended unconfirmed =>
      simp only [hp, confirmedPhase, Except.ok.injEq] at hphase
      exact ⟨unconfirmed, rfl, hremove hphase⟩

theorem expireEnd_eq_ok (h : s.expireEnd = .ok t) :
    ∃ unconfirmed v, s.endPhase = .ending unconfirmed ∧ checkedAdd s.version 1 = some v ∧
      t = { s with endPhase := .ended unconfirmed, version := v } := by
  unfold expireEnd at h
  split at h
  · rename_i unconfirmed hp
    obtain ⟨v, hv, rfl⟩ := bumpVersion_eq_ok.1 h
    exact ⟨unconfirmed, v, hp, hv, rfl⟩
  · cases h

def terminalEvidence (s : ExecutionState κ) : Option ExecFrame :=
  if s.status.isTerminal then
    match s.status.terminalCause with
    | some (.authenticated occurrence) => some (.abort occurrence)
    | _ => s.lastCertificate.map .stepCertificate
  else none

inductive EndMatch where
  | same | different | notTerminalEvidence
  deriving DecidableEq

/-- Compare authenticated peer evidence with the local conclusion. -/
def endConclusionMatches (s : ExecutionState κ) (frame : ExecFrame) : EndMatch :=
  match s.terminalEvidence, frame with
  | some (.stepCertificate ours), .stepCertificate certificate =>
    if ours.commitment = certificate.commitment then .same
    else if certificate.commitment.step < ours.commitment.step then .notTerminalEvidence
    else .different
  | some (.abort _), .abort occurrence =>
    if occurrence.coordinate = s.stepCursor then .same else .different
  | some _, .stepCertificate certificate =>
    if certificate.commitment.step < s.agreedStep then .notTerminalEvidence else .different
  | some _, .abort _ => .different
  | _, _ => .notTerminalEvidence

def validateEnd (s : ExecutionState κ) : Except ProtocolError Unit :=
  match s.endPhase with
  | .open => ensure (s.status.isTerminal = false) .invalidTerminalStatus
  | .ending unconfirmed => do
    ensure (s.status.isTerminal = true) .invalidTerminalStatus
    ensure (unconfirmed ≠ ∅) .invalidTerminalStatus
    ensure (∀ peer ∈ unconfirmed, peer ≠ s.producer ∧ s.binding.isParticipant peer = true)
      .invalidTerminalStatus
  | .ended unconfirmed => do
    ensure (s.status.isTerminal = true) .invalidTerminalStatus
    ensure (∀ peer ∈ unconfirmed, peer ≠ s.producer ∧ s.binding.isParticipant peer = true)
      .invalidTerminalStatus

def currentFrames (s : ExecutionState κ) (me : PeerId) : List ExecFrame :=
  let certificate := match s.lastCertificate with
    | some certificate => [.stepCertificate certificate]
    | none => []
  let staged := match s.proposal with
    | some proposal =>
      let commitment := s.commitmentFor proposal
      let message := match proposal.entry.event with
        | .message source data => if source = me then [.message commitment data] else []
        | .sessionStarted _ => []
      let signature := match proposal.signatures.find? (·.participant = me) with
        | some signature => [.stepSignature commitment signature.signature.sig]
        | none => []
      message ++ signature
    | none => []
  let abort := match s.status.terminalCause with
    | some (.authenticated occurrence) => [.abort occurrence]
    | _ => []
  certificate ++ staged ++ abort

end ExecutionState

end Arena0
