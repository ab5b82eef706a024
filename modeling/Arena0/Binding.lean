import Arena0.Activation

/-!
# Participants of an activated session

What the checks of an activation guarantee about its ticket set, the committed
ensemble, and the execution binding with its key lookups.
-/

namespace Arena0

open Borsh Fallible

variable {κ : Primitives} {t : Ticket}

/-! ## Protocol errors -/

inductive ExecLifecycle where
  | negotiating | activating | waiting | active | completed | aborted | failed
  deriving DecidableEq

inductive ProtocolError where
  | directQueueFull (recipient : PeerId)
  | directOutOfOrder (source : PeerId) (seq : UInt64)
  | directFromAgreedEvent
  | illegalLifecycle (current : ExecLifecycle) (event : String)
  | invalidActivation (error : ActivationError)
  | bindingMismatch
  | unknownParticipant (participant : PeerId)
  | versionExhausted
  | agreedStepExhausted
  | stepCoordinateMismatch (expected actual : UInt64)
  | agreedPreStateMismatch (expected actual : StateHash)
  | agreedChainMismatch
  | stateHashMismatch
  | sharedProposalExists
  | sharedProposalSigned
  | sharedProposalMissing
  | traceVersionMismatch (actual expected : UInt32)
  | missingSessionStart
  | sessionStartPosition
  | sessionStartMismatch
  | traceEntryTooLarge (actual max : ℕ)
  | collectionTooLarge (kind : String) (actual max : ℕ)
  | invalidStepSignature (participant : PeerId) (step : UInt64)
  | duplicateStepSignature (participant : PeerId)
  | conflictingStepSignature (participant : PeerId)
  | incompleteProof (actual expected : ℕ)
  | receiptBudgetExhausted (step : UInt64)
  | invalidCertificate (message : String)
  | receiptBodyMismatch
  | invalidAbortOccurrence
  | invalidAbortSignature (message : String)
  | invalidAbortCoordinate
  | unauthenticatedAbort
  | terminalTraceMismatch
  | invalidOutcomeProjection (message : String)
  | terminalOutcomeRequired
  | terminalOutcomeMismatch
  | outcomeProjectionMismatch
  | calloutMismatch
  | invalidCalloutState
  | terminalAlreadyPublished
  | invalidTerminalStatus
  | multipleTerminalEffects
  | alreadyTerminal
  | localSharedChange
  | outgoingQueueFull (actual max : ℕ)
  | notQueuedMessage
  | payloadTooLarge (kind : String) (actual max : ℕ)
  | encodedTooLarge (kind : String) (actual max : ℕ)
  | serialization (message : String)
  | deserialization (message : String)
  deriving DecidableEq

/-! ## What an activation guarantees -/

structure TicketSet (offer : Offer κ) (tickets : List Ticket) : Prop where
  offer_valid : offer.validate = .ok ()
  length_offer : tickets.length = offer.tickets.length
  hashes : ∀ p ∈ tickets.zip offer.tickets, TicketHash.of κ p.1.data = p.2
  active : ∀ t ∈ tickets, ∃ key proof issued lifetime,
    t.data.action = .active key proof issued lifetime
  creator : tickets.head?.map (·.data.signer) = some offer.data.creator
  nodup : (tickets.map (·.data.signer)).Nodup
  ascending : (tickets.tail.map (·.data.signer)).IsChain (· < ·)
  bounds : 2 ≤ tickets.length ∧ tickets.length ≤ maxParticipants

private theorem selected_active {hash : TicketHash}
    (h : checkSelectedTicket κ t hash = .ok ()) :
    TicketHash.of κ t.data = hash ∧
      ∃ key proof issued lifetime, t.data.action = .active key proof issued lifetime := by
  simp only [checkSelectedTicket, bind_eq_ok, ensure_eq_ok, mapError_eq_ok] at h
  obtain ⟨_, hash_eq, _, _, h⟩ := h
  refine ⟨hash_eq, ?_⟩
  cases ha : t.data.action with
  | active key proof issued lifetime => exact ⟨key, proof, issued, lifetime, rfl⟩
  | withdrawn => simp [ha] at h

theorem activationDataFor_eq_ok {offer : Offer κ} {tickets : List Ticket} {data : ActivationData}
    (h : activationDataFor offer tickets = .ok data) :
    TicketSet offer tickets ∧
      data = ⟨activationDomain, activationVersion, OfferHash.of offer.data, offer.tickets⟩ := by
  simp only [activationDataFor, bind_eq_ok, ensure_eq_ok, mapError_eq_ok, forAll_eq_ok,
    pure_eq_ok, ActivationData.new, ActivationData.validate] at h
  obtain ⟨_, hoffer, _, _, _, hlen, _, hsel, _, hcreator, _, hnodup, _, hasc, d,
    ⟨_, ⟨_, _, _, _, _, hbounds, _⟩, rfl⟩, _, _, rfl⟩ := h
  refine ⟨⟨hoffer, hlen.1, fun p hp => (selected_active (hsel p hp)).1, ?_, hcreator, hnodup,
    hasc, by rw [hlen.1]; exact hbounds⟩, rfl⟩
  intro t ht
  obtain ⟨i, hi, rfl⟩ := List.getElem_of_mem ht
  have hi' : i < offer.tickets.length := hlen.1 ▸ hi
  have hz : (tickets[i], offer.tickets[i]) ∈ tickets.zip offer.tickets := by
    rw [← List.getElem_zip (h := by simp [hi, hi'])]
    exact List.getElem_mem _
  exact (selected_active (hsel _ hz)).2

theorem PreparedActivation.ticketSet (p : PreparedActivation κ) : TicketSet p.offer p.tickets :=
  (activationDataFor_eq_ok p.activationData_eq).1

theorem PreparedActivation.activationData_parts (p : PreparedActivation κ) :
    p.activationData =
      ⟨activationDomain, activationVersion, OfferHash.of p.offer.data, p.offer.tickets⟩ :=
  (activationDataFor_eq_ok p.activationData_eq).2

/-! ## Ensembles -/

inductive EnsembleError where
  | tooFewParticipants (len : ℕ)
  | tooManyParticipants (len : ℕ)
  deriving DecidableEq

instance : ToString EnsembleError where
  toString
    | .tooFewParticipants len => s!"session ensemble needs at least two participants, got {len}"
    | .tooManyParticipants len => s!"session ensemble length must fit in u8, got {len}"

@[ext] structure Ensemble where
  peers : List PeerId
  sorted : peers.Pairwise (· < ·)
  bounds : 2 ≤ peers.length ∧ peers.length ≤ maxParticipants
  deriving DecidableEq

def sortDedup {k : IdKind} (ids : List (Id k)) : List (Id k) :=
  (ids.insertionSort (· ≤ ·)).destutter (· ≠ ·)

theorem isChain_lt_of_le_of_ne {α : Type} [LinearOrder α] {l : List α}
    (hle : l.IsChain (· ≤ ·)) (hne : l.IsChain (· ≠ ·)) : l.IsChain (· < ·) := by
  induction l with
  | nil => exact .nil
  | cons a l ih =>
    cases l with
    | nil => exact .singleton a
    | cons b l =>
      rw [List.isChain_cons_cons] at hle hne ⊢
      exact ⟨lt_of_le_of_ne hle.1 hne.1, ih hle.2 hne.2⟩

theorem sortDedup_sorted (peers : List PeerId) : (sortDedup peers).Pairwise (· < ·) := by
  have hle : (sortDedup peers).Pairwise (· ≤ ·) :=
    (List.pairwise_insertionSort (· ≤ ·) peers).sublist (List.destutter_sublist _ _)
  have hne : (sortDedup peers).IsChain (· ≠ ·) := List.isChain_destutter _ _
  exact List.isChain_iff_pairwise.1 (isChain_lt_of_le_of_ne hle.isChain hne)

theorem sortDedup_of_sorted {peers : List PeerId} (h : peers.Pairwise (· < ·)) :
    sortDedup peers = peers := by
  have hle : peers.Pairwise (· ≤ ·) := h.imp le_of_lt
  have hne : peers.IsChain (· ≠ ·) := (h.imp ne_of_lt).isChain
  rw [sortDedup, hle.insertionSort_eq]
  exact List.destutter_of_isChain _ _ hne

theorem length_sortDedup {peers : List PeerId} (h : peers.Nodup) :
    (sortDedup peers).length = peers.length := by
  have hperm := List.perm_insertionSort (· ≤ ·) peers
  have hne : (peers.insertionSort (· ≤ ·)).IsChain (· ≠ ·) :=
    List.Pairwise.isChain (hperm.nodup_iff.2 h)
  rw [sortDedup, List.destutter_of_isChain _ _ hne, hperm.length_eq]

namespace Ensemble

def fromPeers (peers : List PeerId) : Except EnsembleError Ensemble :=
  if h₁ : (sortDedup peers).length < 2 then
    .error (.tooFewParticipants (sortDedup peers).length)
  else if h₂ : maxParticipants < (sortDedup peers).length then
    .error (.tooManyParticipants (sortDedup peers).length)
  else .ok ⟨sortDedup peers, sortDedup_sorted peers, by omega, by omega⟩

theorem fromPeers_peers (e : Ensemble) : fromPeers e.peers = .ok e := by
  have hs := sortDedup_of_sorted e.sorted
  have hb := e.bounds
  have h₁ : ¬ (sortDedup e.peers).length < 2 := by rw [hs]; omega
  have h₂ : ¬ maxParticipants < (sortDedup e.peers).length := by rw [hs]; omega
  simp only [fromPeers, h₁, h₂, ↓reduceDIte]
  exact congrArg Except.ok (Ensemble.ext hs)

/-- The reader sorts and deduplicates what it reads. -/
def codec : Codec Ensemble :=
  peersCodec.partialInv Ensemble.peers
    (fun peers => (fromPeers peers).toOption)
    (fun e => by simp [fromPeers_peers, Except.toOption])

end Ensemble

/-! ## Execution bindings -/

variable (κ) in
/-- The binding of an execution to its exact activated session. -/
structure ExecutionBinding where
  activation : Activation κ
  deriving DecidableEq

namespace ExecutionBinding

def new (activation : Activation κ) : Except ProtocolError (ExecutionBinding κ) := do
  activation.validate.mapError .invalidActivation
  return ⟨activation⟩

def sessionId (b : ExecutionBinding κ) : SessionHash := b.activation.sessionHash

def programHash (b : ExecutionBinding κ) : ProgramHash := b.activation.offer.data.programHash

def ticketKey? (ticket : Ticket) : Option (PeerId × BlsPublicKey) :=
  match ticket.data.action with
  | .active executionBls .. => some (ticket.data.signer, executionBls)
  | .withdrawn => none

/-- The keys of the active tickets ordered by peer, the order signer bitmaps index. -/
def sortedKeys (b : ExecutionBinding κ) : List (PeerId × BlsPublicKey) :=
  (b.activation.tickets.filterMap ticketKey?).insertionSort fun x y => x.1 ≤ y.1

def participantKeys (b : ExecutionBinding κ) :
    Except ProtocolError (List (PeerId × BlsPublicKey)) := do
  ensure (b.sortedKeys.length = b.activation.tickets.length) .bindingMismatch
  return b.sortedKeys

def participantBlsKeys (b : ExecutionBinding κ) : Except ProtocolError (List BlsPublicKey) := do
  let keys ← b.participantKeys
  return keys.map (·.2)

def participantKey (b : ExecutionBinding κ) (participant : PeerId) :
    Except ProtocolError BlsPublicKey := do
  let ticket ← okOr (b.activation.tickets.find? (·.data.signer = participant))
    (.unknownParticipant participant)
  match ticket.data.action with
  | .active executionBls .. => .ok executionBls
  | .withdrawn => .error .bindingMismatch

def participants (b : ExecutionBinding κ) : List PeerId := b.activation.prepared.signers

def isParticipant (b : ExecutionBinding κ) (peer : PeerId) : Bool := peer ∈ b.participants

def ensemble (b : ExecutionBinding κ) : Except EnsembleError Ensemble :=
  Ensemble.fromPeers b.participants

theorem ticketSet (b : ExecutionBinding κ) :
    TicketSet b.activation.offer b.activation.tickets := b.activation.prepared.ticketSet

theorem participants_nodup (b : ExecutionBinding κ) : b.participants.Nodup := b.ticketSet.nodup

@[simp] theorem length_participants (b : ExecutionBinding κ) :
    b.participants.length = b.activation.tickets.length := by
  simp [participants, PreparedActivation.signers, Activation.tickets]

theorem exists_ensemble (b : ExecutionBinding κ) : ∃ ensemble, b.ensemble = .ok ensemble := by
  have hlen := length_sortDedup b.participants_nodup
  have hbounds := b.ticketSet.bounds
  rw [length_participants] at hlen
  have h₁ : ¬ (sortDedup b.participants).length < 2 := by omega
  have h₂ : ¬ maxParticipants < (sortDedup b.participants).length := by omega
  unfold ensemble Ensemble.fromPeers
  rw [dif_neg h₁, dif_neg h₂]
  exact ⟨_, rfl⟩

theorem isParticipant_iff (b : ExecutionBinding κ) (peer : PeerId) :
    b.isParticipant peer = true ↔ peer ∈ b.participants := by
  simp [isParticipant]

theorem ticketKey?_eq_some (b : ExecutionBinding κ) (ht : t ∈ b.activation.tickets) :
    ∃ key, ticketKey? t = some (t.data.signer, key) := by
  obtain ⟨key, proof, issued, lifetime, h⟩ := b.ticketSet.active t ht
  exact ⟨key, by simp [ticketKey?, h]⟩

private theorem filterMap_map_fst (l : List Ticket)
    (h : ∀ t ∈ l, ∃ key, ticketKey? t = some (t.data.signer, key)) :
    (l.filterMap ticketKey?).map (·.1) = l.map (·.data.signer) := by
  induction l with
  | nil => rfl
  | cons t l ih =>
    obtain ⟨key, hk⟩ := h t (by simp)
    have hl := ih fun u hu => h u (by simp [hu])
    simp [hk, hl]

theorem map_fst_filterMap (b : ExecutionBinding κ) :
    (b.activation.tickets.filterMap ticketKey?).map (·.1) = b.participants :=
  filterMap_map_fst _ fun _ ht => b.ticketKey?_eq_some ht

theorem sortedKeys_perm (b : ExecutionBinding κ) :
    (b.sortedKeys.map (·.1)).Perm b.participants := by
  rw [← b.map_fst_filterMap]
  exact (List.perm_insertionSort _ _).map _

@[simp] theorem length_sortedKeys (b : ExecutionBinding κ) :
    b.sortedKeys.length = b.activation.tickets.length := by
  have h := b.sortedKeys_perm.length_eq
  simpa using h

@[simp] theorem participantKeys_eq_ok (b : ExecutionBinding κ) :
    b.participantKeys = .ok b.sortedKeys := by
  simp [participantKeys]

@[simp] theorem participantBlsKeys_eq_ok (b : ExecutionBinding κ) :
    b.participantBlsKeys = .ok (b.sortedKeys.map (·.2)) := by
  simp [participantBlsKeys]

theorem two_le_length (b : ExecutionBinding κ) : 2 ≤ b.activation.tickets.length :=
  b.ticketSet.bounds.1

theorem length_le (b : ExecutionBinding κ) : b.activation.tickets.length ≤ maxParticipants :=
  b.ticketSet.bounds.2

def firstSigner (b : ExecutionBinding κ) : PeerId :=
  (b.activation.tickets.head (List.ne_nil_of_length_pos (by have := b.two_le_length; omega))).data.signer

theorem sortedKeys_pairwise (b : ExecutionBinding κ) :
    b.sortedKeys.Pairwise fun x y => x.1 < y.1 := by
  have hle : b.sortedKeys.Pairwise fun x y => x.1 ≤ y.1 :=
    List.pairwise_insertionSort (fun x y : PeerId × BlsPublicKey => x.1 ≤ y.1) _
  have hnodup : (b.sortedKeys.map (·.1)).Nodup :=
    b.sortedKeys_perm.nodup_iff.2 b.participants_nodup
  have hne : b.sortedKeys.Pairwise fun x y => x.1 ≠ y.1 := List.pairwise_map.1 hnodup
  exact hle.imp₂ (fun _ _ h₁ h₂ => lt_of_le_of_ne h₁ h₂) hne

private theorem find_signer {l : List Ticket} (hn : (l.map (·.data.signer)).Nodup)
    (ht : t ∈ l) : l.find? (·.data.signer = t.data.signer) = some t := by
  induction l with
  | nil => cases ht
  | cons u l ih =>
    rw [List.map_cons, List.nodup_cons] at hn
    rcases List.mem_cons.1 ht with rfl | ht
    · simp
    · have hne : u.data.signer ≠ t.data.signer := by
        intro h
        exact hn.1 (h ▸ List.mem_map_of_mem ht)
      simp [hne, ih hn.2 ht]

theorem participantKey_eq_ok (b : ExecutionBinding κ) {p : PeerId} {key : BlsPublicKey} :
    b.participantKey p = .ok key ↔ (p, key) ∈ b.sortedKeys := by
  have hmem : (p, key) ∈ b.sortedKeys ↔ ∃ t ∈ b.activation.tickets, ticketKey? t = some (p, key) := by
    rw [sortedKeys, List.mem_insertionSort, List.mem_filterMap]
  rw [hmem]
  constructor
  · intro h
    simp only [participantKey, bind_eq_ok, okOr_eq_ok] at h
    obtain ⟨t, ht, h⟩ := h
    have hs : t.data.signer = p := by simpa using List.find?_some ht
    refine ⟨t, List.mem_of_find?_eq_some ht, ?_⟩
    split at h
    · rename_i k _ _ _ ha
      cases h
      simp [ticketKey?, ha, hs]
    · cases h
  · rintro ⟨t, ht, hk⟩
    unfold ticketKey? at hk
    split at hk
    · rename_i k _ _ _ ha
      simp only [Option.some.injEq, Prod.mk.injEq] at hk
      obtain ⟨rfl, rfl⟩ := hk
      simp only [participantKey, bind_eq_ok, okOr_eq_ok]
      exact ⟨t, find_signer b.ticketSet.nodup ht, by simp [ha]⟩
    · cases hk

theorem exists_participantKey_iff (b : ExecutionBinding κ) (p : PeerId) :
    (∃ key, b.participantKey p = .ok key) ↔ p ∈ b.participants := by
  rw [← b.sortedKeys_perm.mem_iff]
  simp [participantKey_eq_ok]

end ExecutionBinding

end Arena0
