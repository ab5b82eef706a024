import Arena0.Receipt

/-!
# Staged proposals

A dispatch result waits as a proposal until every participant has signed its
commitment.  This module has the proposal, the checks it must pass against the
agreed cursor, and the certificate assembled from its signatures.
-/

namespace Arena0

open Borsh Fallible

variable {κ : Primitives}

/-! ## State payloads -/

def maxSharedStateBytes : ℕ := 4 * 1024 * 1024
def maxLocalStateBytes : ℕ := 4 * 1024 * 1024
def canonicalStateMemoryBytes : ℕ := 65 * 65536

structure BoundedBytes (max : ℕ) where
  bytes : Bytes
  bound : bytes.length ≤ max
  deriving DecidableEq

abbrev SharedStateBytes := BoundedBytes maxSharedStateBytes
abbrev LocalStateBytes := BoundedBytes maxLocalStateBytes

/-- The fixed-size memory image of a payload: its length, the payload and a zero tail. -/
def canonicalStateImage (payload : Bytes) : Bytes :=
  Codec.leBytes 4 payload.length ++
    (payload ++ List.replicate (canonicalStateMemoryBytes - 4 - payload.length) 0)

/-- Hash of the complete canonical image of shared state. -/
def StateHash.ofShared (κ : Primitives) (snapshot : SharedStateBytes) : StateHash :=
  ⟨κ.blake3 (canonicalStateImage snapshot.bytes)⟩

/-! ## Callouts, proposals and lanes -/

structure OpenCallout where
  id : UInt64
  calloutIndex : UInt32
  context : Bytes
  deriving DecidableEq

structure CalloutRequest where
  calloutIndex : UInt32
  context : Bytes
  deriving DecidableEq

def calloutId (κ : Primitives) (executionId : ExecId) (eventPosition : UInt64) : UInt64 :=
  let preimage := Codec.utf8 "arena0/pending/v3" ++ executionId.bytes.bytes ++
    Codec.u64.encode eventPosition
  UInt64.ofNat (Codec.leNat ((κ.blake3 preimage).bytes.take 8))

variable (κ) in
/-- A dispatch result waiting for N-of-N signatures. -/
structure SharedProposal where
  entry : TraceEntry
  sharedState : SharedStateBytes
  localState : LocalStateBytes
  /-- The outgoing queue installed on certification. -/
  outgoing : List Bytes
  /-- Effects with their dispatch ordinals, without broadcasts. -/
  effects : List (UInt32 × Effect)
  eventPosition : UInt64
  status : ExecutionStatus κ
  callout : Option OpenCallout
  signatures : List ParticipantStepSignature
  deriving DecidableEq

/-! ## Construction and signatures -/

def validateOutgoing (outgoing : List Bytes) : Except ProtocolError Unit := do
  ensure (outgoing.length ≤ maxOutgoingMessages)
    (.outgoingQueueFull outgoing.length maxOutgoingMessages)
  forAll (fun message => ensurePayload "outgoing message" message.length maxEffectPayloadBytes)
    outgoing

theorem validateOutgoing_eq_ok {outgoing : List Bytes} :
    validateOutgoing outgoing = .ok () ↔ outgoing.length ≤ maxOutgoingMessages ∧
      ∀ message ∈ outgoing, message.length ≤ maxEffectPayloadBytes := by
  simp [validateOutgoing, ensurePayload]

namespace SharedProposal

/-- A staged dispatch result; only an active status carries an open callout. -/
def new (entry : TraceEntry) (sharedState : SharedStateBytes) (localState : LocalStateBytes)
    (outgoing : List Bytes) (effects : List (UInt32 × Effect)) (eventPosition : UInt64)
    (status : ExecutionStatus κ) (callout : Option OpenCallout)
    (signatures : List ParticipantStepSignature) : Except ProtocolError (SharedProposal κ) := do
  ensure (effects.length ≤ maxEffects) (.collectionTooLarge "effects" effects.length maxEffects)
  validateOutgoing outgoing
  ensure (status = .active ∨ callout = none) .invalidCalloutState
  return { entry, sharedState, localState, outgoing, effects, eventPosition, status, callout,
           signatures }

/-- Add one participant's checked signature, keeping the participant order. -/
def addSignature (proposal : SharedProposal κ) (binding : ExecutionBinding κ)
    (commitment : StepCommitment) (signature : ParticipantStepSignature) :
    Except ProtocolError (SharedProposal κ) :=
  match proposal.signatures.find? (·.participant = signature.participant) with
  | some existing =>
    if existing.signature = signature.signature then
      .error (.duplicateStepSignature signature.participant)
    else .error (.conflictingStepSignature signature.participant)
  | none => do
    let key ← binding.participantKey signature.participant
    verifyStepSignature κ key commitment signature
    ensure (proposal.signatures.length < maxProofSignatures)
      (.collectionTooLarge "step signatures" (proposal.signatures.length + 1) maxProofSignatures)
    return { proposal with
      signatures := (proposal.signatures ++ [signature]).insertionSort
        fun x y => x.participant ≤ y.participant }

end SharedProposal

/-- The first pair of neighbours that is not in strict participant order fails. -/
def validateStepSignatureOrder : List ParticipantStepSignature → Except ProtocolError Unit
  | x :: y :: rest => do
    if x.participant = y.participant then
      if x.signature = y.signature then .error (.duplicateStepSignature x.participant)
      else .error (.conflictingStepSignature x.participant)
    else
      ensure (x.participant < y.participant)
        (.invalidCertificate "pending step signatures are not canonical")
    validateStepSignatureOrder (y :: rest)
  | _ => .ok ()

theorem validateStepSignatureOrder_eq_ok {signatures : List ParticipantStepSignature} :
    validateStepSignatureOrder signatures = .ok () ↔
      (signatures.map (·.participant)).IsChain (· < ·) := by
  induction signatures with
  | nil => simp [validateStepSignatureOrder]
  | cons x rest ih =>
    cases rest with
    | nil => simp [validateStepSignatureOrder]
    | cons y rest =>
      simp only [validateStepSignatureOrder, List.map_cons, List.isChain_cons_cons]
      rw [List.map_cons] at ih
      by_cases h : x.participant = y.participant
      · have hlt : ¬ x.participant < y.participant := by simp [h]
        simp only [h, ↓reduceIte, lt_irrefl, false_and, iff_false]
        split <;> simp
      · simp [h, ih]

/-- Check all evidence a pending proposal retains against the agreed cursor. -/
def validateProposal (binding : ExecutionBinding κ) (agreed : StepCursor) (eventPosition : UInt64)
    (proposal : SharedProposal κ) : Except ProtocolError Unit := do
  validateSharedEntry binding agreed.nextStep proposal.entry
  ensure (proposal.eventPosition = eventPosition)
    (.invalidCertificate "pending proposal event position is not the expected event")
  ensure (proposal.entry.agreement = .empty)
    (.invalidCertificate "pending proposal carries an agreement")
  ensure (proposal.entry.preState = agreed.stateHash)
    (.invalidCertificate "pending proposal pre-state is not the agreed state")
  let expected := StepCommitment.forEntry κ binding.sessionId proposal.entry agreed.chainHash
  ensure (expected.postState = .ofShared κ proposal.sharedState)
    (.invalidCertificate "pending proposal commitment is inconsistent")
  let advanced ← agreed.advance κ expected
  let lifecycle ← singleLifecycleEffect (proposal.effects.map (·.2))
  ensure (lifecycle.bind StepTerminal.fromEffect = proposal.entry.terminal)
    (.invalidCertificate "proposal effects and trace terminal do not match")
  proposal.status.validateBinding binding advanced
  ExecutionStatus.validateProposalStatus proposal.entry expected proposal.status
  let participants ← binding.participantKeys
  ensure (proposal.signatures.length ≤ participants.length)
    (.collectionTooLarge "step signatures" proposal.signatures.length participants.length)
  forAll (fun signature => do
    let key ← okOr (participants.lookup signature.participant)
      (.unknownParticipant signature.participant)
    verifyStepSignature κ key expected signature) proposal.signatures
  validateStepSignatureOrder proposal.signatures

variable {binding : ExecutionBinding κ} {agreed : StepCursor} {position : UInt64}
  {proposal : SharedProposal κ}

def SharedProposal.commitmentAt (proposal : SharedProposal κ) (binding : ExecutionBinding κ)
    (agreed : StepCursor) : StepCommitment :=
  .forEntry κ binding.sessionId proposal.entry agreed.chainHash

/-- What the checks of a proposal establish, its signatures aside. -/
structure ProposalStaged (binding : ExecutionBinding κ) (agreed : StepCursor) (position : UInt64)
    (proposal : SharedProposal κ) : Prop where
  entry_valid : validateSharedEntry binding agreed.nextStep proposal.entry = .ok ()
  position_eq : proposal.eventPosition = position
  agreement_eq : proposal.entry.agreement = .empty
  preState_eq : proposal.entry.preState = agreed.stateHash
  postState_eq : proposal.entry.postState = .ofShared κ proposal.sharedState
  advances : ∃ next, agreed.advance κ (proposal.commitmentAt binding agreed) = .ok next ∧
    proposal.status.validateBinding binding next = .ok ()
  terminal_eq : ∃ lifecycle, singleLifecycleEffect (proposal.effects.map (·.2)) = .ok lifecycle ∧
    lifecycle.bind StepTerminal.fromEffect = proposal.entry.terminal
  status_valid : ExecutionStatus.validateProposalStatus proposal.entry
    (proposal.commitmentAt binding agreed) proposal.status = .ok ()

/-- Verified signatures of distinct participants, in participant order. -/
structure SignedBy (binding : ExecutionBinding κ) (commitment : StepCommitment)
    (signatures : List ParticipantStepSignature) : Prop where
  verified : ∀ x ∈ signatures, ∃ key, binding.participantKey x.participant = .ok key ∧
    verifyStepSignature κ key commitment x = .ok ()
  ordered : (signatures.map (·.participant)).Pairwise (· < ·)

namespace SignedBy

variable {commitment : StepCommitment} {signatures : List ParticipantStepSignature}

theorem nil : SignedBy binding commitment [] := ⟨by simp, by simp⟩

theorem subperm (h : SignedBy binding commitment signatures) :
    (signatures.map (·.participant)).Subperm binding.participants := by
  refine List.subperm_of_subset (h.ordered.imp ne_of_lt) fun p hp => ?_
  obtain ⟨x, hx, rfl⟩ := List.mem_map.1 hp
  obtain ⟨key, hk, -⟩ := h.verified x hx
  exact (binding.exists_participantKey_iff x.participant).1 ⟨key, hk⟩

theorem length_le (h : SignedBy binding commitment signatures) :
    signatures.length ≤ binding.activation.tickets.length := by
  simpa using h.subperm.length_le

end SignedBy

theorem ExecutionBinding.lookup_sortedKeys (b : ExecutionBinding κ) {p : PeerId}
    {key : BlsPublicKey} : b.sortedKeys.lookup p = some key ↔ b.participantKey p = .ok key := by
  rw [b.participantKey_eq_ok, List.lookup_eq_some_iff]
  constructor
  · rintro ⟨l₁, l₂, h, -⟩
    rw [h]
    simp
  · intro h
    obtain ⟨l₁, l₂, heq⟩ := List.append_of_mem h
    refine ⟨l₁, l₂, heq, ?_⟩
    intro q hq
    have hlt := (List.pairwise_append.1 (heq ▸ b.sortedKeys_pairwise)).2.2 q hq (p, key) (by simp)
    simpa using (ne_of_lt hlt).symm

/-- A proposal passes its checks exactly when it was staged on the cursor and
every signature on it is verified. -/
theorem validateProposal_eq_ok :
    validateProposal binding agreed position proposal = .ok () ↔
      ProposalStaged binding agreed position proposal ∧
        SignedBy binding (proposal.commitmentAt binding agreed) proposal.signatures := by
  simp only [validateProposal, bind_eq_ok, ensure_eq_ok, forAll_eq_ok, okOr_eq_ok,
    ExecutionBinding.participantKeys_eq_ok, Except.ok.injEq, validateStepSignatureOrder_eq_ok,
    List.isChain_iff_pairwise]
  constructor
  · rintro ⟨_, he, _, hpos, _, hagr, _, hpre, _, hpost, next, hadv, life, hlife, _, hterm, _,
      hbind, _, hstat, keys, rfl, _, _, _, hsigs, hord⟩
    refine ⟨⟨he, hpos, hagr, hpre, hpost, ⟨next, hadv, hbind⟩, ⟨life, hlife, hterm⟩, hstat⟩,
      ⟨?_, hord⟩⟩
    intro x hx
    obtain ⟨key, hkey, hv⟩ := hsigs x hx
    exact ⟨key, binding.lookup_sortedKeys.1 hkey, hv⟩
  · rintro ⟨hp, hs⟩
    obtain ⟨next, hadv, hbind⟩ := hp.advances
    obtain ⟨life, hlife, hterm⟩ := hp.terminal_eq
    refine ⟨(), hp.entry_valid, (), hp.position_eq, (), hp.agreement_eq, (), hp.preState_eq, (),
      hp.postState_eq, next, hadv, life, hlife, (), hterm, (), hbind, (), hp.status_valid, _, rfl,
      (), by simpa using hs.length_le, (), ?_, hs.ordered⟩
    intro x hx
    obtain ⟨key, hkey, hv⟩ := hs.verified x hx
    exact ⟨key, binding.lookup_sortedKeys.2 hkey, hv⟩

theorem SharedProposal.addSignature_eq_ok {commitment : StepCommitment}
    {x : ParticipantStepSignature} {signed : SharedProposal κ}
    (h : proposal.addSignature binding commitment x = .ok signed) :
    (∀ y ∈ proposal.signatures, y.participant ≠ x.participant) ∧
      (∃ key, binding.participantKey x.participant = .ok key ∧
        verifyStepSignature κ key commitment x = .ok ()) ∧
      signed = { proposal with
        signatures := (proposal.signatures ++ [x]).insertionSort
          fun x y => x.participant ≤ y.participant } := by
  unfold addSignature at h
  split at h
  · split at h <;> cases h
  · rename_i hfind
    simp only [bind_eq_ok, ensure_eq_ok, pure_eq_ok] at h
    obtain ⟨key, hkey, _, hv, _, _, rfl⟩ := h
    refine ⟨?_, ⟨key, hkey, hv⟩, rfl⟩
    simpa using hfind

theorem SignedBy.insert {commitment : StepCommitment} {signatures : List ParticipantStepSignature}
    {x : ParticipantStepSignature} (h : SignedBy binding commitment signatures)
    (hnew : ∀ y ∈ signatures, y.participant ≠ x.participant)
    (hx : ∃ key, binding.participantKey x.participant = .ok key ∧
      verifyStepSignature κ key commitment x = .ok ()) :
    SignedBy binding commitment ((signatures ++ [x]).insertionSort
      fun x y => x.participant ≤ y.participant) := by
  have hperm := List.perm_insertionSort
    (fun x y : ParticipantStepSignature => x.participant ≤ y.participant) (signatures ++ [x])
  refine ⟨?_, ?_⟩
  · intro y hy
    rcases List.mem_append.1 (hperm.mem_iff.1 hy) with hy | hy
    · exact h.verified y hy
    · obtain rfl := List.mem_singleton.1 hy
      exact hx
  · have hnodup : ((signatures ++ [x]).map (·.participant)).Nodup := by
      have hs : (signatures.map (·.participant)).Nodup := h.ordered.imp ne_of_lt
      rw [List.map_append, List.map_singleton, List.nodup_append]
      refine ⟨hs, by simp, ?_⟩
      simpa using hnew
    have hne := List.pairwise_map.1 ((hperm.map (·.participant)).nodup_iff.2 hnodup)
    have hle : ((signatures ++ [x]).insertionSort
        fun x y => x.participant ≤ y.participant).Pairwise
          fun x y => x.participant ≤ y.participant :=
      List.pairwise_insertionSort
        (fun x y : ParticipantStepSignature => x.participant ≤ y.participant) _
    exact List.pairwise_map.2 (hle.imp₂ (fun _ _ h₁ h₂ => lt_of_le_of_ne h₁ h₂) hne)

/-! ## Certificates from signatures -/

/-- The signatures of the participants in key order, each verified. -/
def collectSignatures (proposal : SharedProposal κ) (commitment : StepCommitment)
    (participants : ℕ) : List (PeerId × BlsPublicKey) → Except ProtocolError (List BlsSignature)
  | [] => .ok []
  | (participant, key) :: keys => do
    let signature ← okOr (proposal.signatures.find? (·.participant = participant))
      (.incompleteProof proposal.signatures.length participants)
    verifyStepSignature κ key commitment signature
    let signatures ← collectSignatures proposal commitment participants keys
    return signature.signature.sig :: signatures

def StepCertificate.fromSignatures (binding : ExecutionBinding κ) (commitment : StepCommitment)
    (proposal : SharedProposal κ) : Except ProtocolError StepCertificate := do
  let participants ← binding.participantKeys
  ensure (proposal.signatures.length = participants.length)
    (.incompleteProof proposal.signatures.length participants.length)
  let signatures ← collectSignatures proposal commitment participants.length participants
  let signers := (List.range participants.length).foldl SignerSet.set
    (.withCapacity participants.length)
  let agreement ← (AggregateAttestation.fromSignatures κ signers signatures).mapError fun error =>
    ProtocolError.invalidCertificate (toString error)
  verifyFullAgreement κ agreement commitment (participants.map (·.2))
  return ⟨commitment, agreement⟩

theorem StepCertificate.fromSignatures_eq_ok {binding : ExecutionBinding κ}
    {commitment : StepCommitment} {proposal : SharedProposal κ} {certificate : StepCertificate}
    (h : fromSignatures binding commitment proposal = .ok certificate) :
    certificate.commitment = commitment ∧
      verifyFullAgreement κ certificate.agreement commitment (binding.sortedKeys.map (·.2))
        = .ok () := by
  simp only [fromSignatures, bind_eq_ok, ExecutionBinding.participantKeys_eq_ok, ensure_eq_ok,
    mapError_eq_ok, pure_eq_ok] at h
  obtain ⟨_, hkeys, _, _, _, _, agreement, _, _, hv, rfl⟩ := h
  cases hkeys
  exact ⟨rfl, hv⟩

end Arena0
