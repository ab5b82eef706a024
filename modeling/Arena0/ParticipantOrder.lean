import Arena0.Ballots
import Arena0.Certificates
import Arena0.ReceiptImports

/-!
# The participant order of a session

Tickets stand in one order only, the creator first and the others ascending, and
a session identity fixes that order.  Guests, execution keys and signer bitmaps
number the participants by another order, the sorted ensemble, and agree on it.
-/

namespace Arena0

open Borsh Fallible

variable {κ : Primitives}

/-! ## Ticket order -/

private theorem signers_pairwise {tickets : List Ticket}
    (h : (tickets.map (·.data.signer)).IsChain (· < ·)) :
    tickets.Pairwise fun t u => t.data.signer < u.data.signer :=
  List.pairwise_map.1 (List.isChain_iff_pairwise.1 h)

theorem TicketSet.eq_of_perm {offer offer' : Offer κ} {tickets tickets' : List Ticket}
    (h : TicketSet offer tickets) (h' : TicketSet offer' tickets')
    (hcreator : offer.data.creator = offer'.data.creator) (hperm : tickets.Perm tickets') :
    tickets = tickets' := by
  have hfirst := h.creator
  have hfirst' := h'.creator
  have hascending := h.ascending
  have hascending' := h'.ascending
  cases tickets with
  | nil => cases hfirst
  | cons t rest =>
    cases tickets' with
    | nil => cases hfirst'
    | cons t' rest' =>
      -- the creator's ticket is the only one with its signer, so both lists start with it
      have hsigner : t.data.signer = t'.data.signer := by
        simp only [List.head?_cons, Option.map_some, Option.some.injEq] at hfirst hfirst'
        rw [hfirst, hfirst', hcreator]
      obtain rfl : t = t' := List.inj_on_of_nodup_map h'.nodup (hperm.subset List.mem_cons_self)
        List.mem_cons_self hsigner
      have hrest : rest = rest' := by
        refine (hperm.cons_inv).eq_of_pairwise ?_ (signers_pairwise hascending)
          (signers_pairwise hascending')
        intro u v _ _ huv hvu
        exact absurd (huv.trans hvu) (lt_irrefl _)
      rw [hrest]

theorem PreparedActivation.new_eq_ok {offer : Offer κ} {tickets : List Ticket}
    {p : PreparedActivation κ} (h : new offer tickets = .ok p) :
    p.offer = offer ∧ p.tickets = tickets := by
  unfold new at h
  split at h
  · obtain rfl := Except.ok.inj h
    exact ⟨rfl, rfl⟩
  · cases h

theorem PreparedActivation.eq_of_perm {p q : PreparedActivation κ}
    (hdata : p.offer.data = q.offer.data) (hperm : p.tickets.Perm q.tickets) : p = q := by
  have htickets : p.tickets = q.tickets :=
    p.ticketSet.eq_of_perm q.ticketSet (congrArg OfferData.creator hdata) hperm
  have hlisted : p.offer.tickets = q.offer.tickets := by
    rw [← p.ticketSet.map_hash, ← q.ticketSet.map_hash, htickets]
  refine ext_parts ?_ htickets
  cases hp : p.offer
  cases hq : q.offer
  rw [hp, hq] at hdata hlisted
  exact congrArg₂ Offer.mk hdata hlisted

def PreparedActivation.ensemble (p : PreparedActivation κ) : Except EnsembleError Ensemble :=
  Ensemble.fromPeers p.signers

/-! ## Ensemble order -/

namespace Ensemble

/-- The participant index of a peer; committed lengths fit a `u8`. -/
def participantOf (e : Ensemble) (peer : PeerId) : Option Participant :=
  match h : e.peers.idxOf? peer with
  | some index => some ⟨index, by
      obtain ⟨hlt, -⟩ := List.idxOf?_eq_some_iff.1 h
      have hle := e.bounds.2
      have : maxParticipants < 256 := by decide
      omega⟩
  | none => none

def peerAt (e : Ensemble) (participant : Participant) : Option PeerId :=
  e.peers[participant.val]?

def signed (e : Ensemble) (signers : SignerSet) : List PeerId :=
  e.peers.filter fun peer => (e.participantOf peer).any fun i => signers.contains i.val

theorem participantOf_eq_some {e : Ensemble} {peer : PeerId} {participant : Participant} :
    e.participantOf peer = some participant ↔ e.peerAt participant = some peer := by
  have hindex : e.participantOf peer = some participant ↔
      e.peers.idxOf? peer = some participant.val := by
    unfold participantOf
    split
    next index h =>
      constructor
      · intro heq
        obtain rfl := Option.some.inj heq
        exact h
      · intro heq
        exact congrArg some (Fin.ext (Option.some.inj (h.symm.trans heq)))
    next h => simp [h]
  rw [hindex, peerAt, List.idxOf?_eq_some_iff, List.getElem?_eq_some_iff]
  constructor
  · rintro ⟨hlt, heq, -⟩
    exact ⟨hlt, heq⟩
  · rintro ⟨hlt, heq⟩
    refine ⟨hlt, heq, fun j hj hsame => ?_⟩
    have hnodup : e.peers.Nodup := e.sorted.imp ne_of_lt
    exact absurd (hnodup.getElem_inj_iff.1 (hsame.trans heq.symm)) (by omega)

end Ensemble

theorem sortDedup_perm {peers : List PeerId} (h : peers.Nodup) : (sortDedup peers).Perm peers := by
  have hperm := List.perm_insertionSort (· ≤ ·) peers
  have hne : (peers.insertionSort (· ≤ ·)).IsChain (· ≠ ·) :=
    List.Pairwise.isChain (hperm.nodup_iff.2 h)
  rwa [sortDedup, List.destutter_of_isChain _ _ hne]

namespace ExecutionBinding

variable {b : ExecutionBinding κ} {e : Ensemble}

theorem peers_eq_map_sortedKeys (h : b.ensemble = .ok e) : e.peers = b.sortedKeys.map (·.1) := by
  have hpeers : e.peers = sortDedup b.participants := by
    unfold ensemble Ensemble.fromPeers at h
    split at h
    · cases h
    · split at h
      · cases h
      · obtain rfl := Except.ok.inj h
        rfl
  have hperm : e.peers.Perm (b.sortedKeys.map (·.1)) := by
    rw [hpeers]
    exact (sortDedup_perm b.participants_nodup).trans b.sortedKeys_perm.symm
  refine hperm.eq_of_pairwise ?_ e.sorted (List.pairwise_map.2 b.sortedKeys_pairwise)
  intro p q _ _ hpq hqp
  exact absurd (hpq.trans hqp) (lt_irrefl _)

theorem participantOf_getElem (h : b.ensemble = .ok e) {i : ℕ} {p : PeerId × BlsPublicKey}
    (hp : b.sortedKeys[i]? = some p) : ∃ index : Participant, index.val = i ∧
      e.participantOf p.1 = some index := by
  have hlt : i < 256 := by
    obtain ⟨hlt, -⟩ := List.getElem?_eq_some_iff.1 hp
    have hle := b.length_le
    have : maxParticipants < 256 := by decide
    rw [b.length_sortedKeys] at hlt
    omega
  refine ⟨⟨i, hlt⟩, rfl, ?_⟩
  rw [Ensemble.participantOf_eq_some, Ensemble.peerAt, peers_eq_map_sortedKeys h,
    List.getElem?_map, hp]
  rfl

theorem selectedParticipants_eq (h : b.ensemble = .ok e) (a : AggregateAttestation) :
    a.selectedParticipants (b.sortedKeys.map (·.2)) =
      (e.signed a.signers).filterMap fun peer => (b.participantKey peer).toOption := by
  have hbit : ∀ q ∈ b.sortedKeys.zipIdx,
      ((e.participantOf q.1.1).any fun i => a.signers.contains i.val) =
        a.signers.contains q.2 := by
    intro q hq
    obtain ⟨index, hindex, hof⟩ := participantOf_getElem h (List.mk_mem_zipIdx_iff_getElem?.1 hq)
    rw [hof, Option.any_some, hindex]
  have hfilter : b.sortedKeys.filter
      (fun p => (e.participantOf p.1).any fun i => a.signers.contains i.val) =
      (b.sortedKeys.zipIdx.filter fun q => a.signers.contains q.2).map (·.1) := by
    conv_lhs => rw [← List.zipIdx_map_fst 0 b.sortedKeys]
    rw [List.filter_map]
    exact congrArg _ (List.filter_congr hbit)
  have hkey : ∀ l : List (PeerId × BlsPublicKey), l ⊆ b.sortedKeys →
      (l.map (·.1)).filterMap (fun peer => (b.participantKey peer).toOption) = l.map (·.2) := by
    intro l hl
    rw [List.filterMap_map, ← List.filterMap_eq_map]
    refine List.filterMap_congr fun p hp => ?_
    rw [Function.comp, b.participantKey_eq_ok.2 (hl hp)]
    rfl
  have hsigned : e.signed a.signers = (b.sortedKeys.filter
      fun p => (e.participantOf p.1).any fun i => a.signers.contains i.val).map (·.1) := by
    rw [Ensemble.signed, peers_eq_map_sortedKeys h, List.filter_map]
    rfl
  rw [hsigned, hkey _ (List.filter_subset_self _), hfilter, List.map_map,
    AggregateAttestation.selectedParticipants, List.zipIdx_map, List.filter_map, List.map_map]
  rfl

end ExecutionBinding

/-! ## One order -/

/-- A session identity has one participant order: tickets are accepted in one order, equal
identities have equal terms, ticket data and ensembles, and ensemble indices, execution
keys and signer bits number the participants alike. -/
theorem session_identity_one_order (κ : Primitives) :
    (∀ (offer offer' : Offer κ) (tickets tickets' : List Ticket) (p p' : PreparedActivation κ),
      offer.data = offer'.data → tickets.Perm tickets' →
      PreparedActivation.new offer tickets = .ok p →
      PreparedActivation.new offer' tickets' = .ok p' →
      tickets = tickets' ∧ offer = offer' ∧ p = p') ∧
    (∀ p p' : PreparedActivation κ, Set.InjOn κ.blake3 (p.preimages ∪ p'.preimages) →
      p.sessionHash = p'.sessionHash →
      p.offer.data = p'.offer.data ∧ p.tickets.map (·.data) = p'.tickets.map (·.data) ∧
        p.ensemble = p'.ensemble) ∧
    (∀ b : ExecutionBinding κ, ∃ e keys, b.ensemble = .ok e ∧ b.participantBlsKeys = .ok keys ∧
      keys.length = e.peers.length ∧
      (∀ peer ∈ b.participants, ∃ i key, e.participantOf peer = some i ∧
        b.participantKey peer = .ok key ∧ keys[i.val]? = some key) ∧
      (∀ a : AggregateAttestation, a.selectedParticipants keys =
        (e.signed a.signers).filterMap fun peer => (b.participantKey peer).toOption)) := by
  refine ⟨?_, ?_, ?_⟩
  · intro offer offer' tickets tickets' p p' hdata hperm hp hp'
    obtain ⟨rfl, rfl⟩ := PreparedActivation.new_eq_ok hp
    obtain ⟨rfl, rfl⟩ := PreparedActivation.new_eq_ok hp'
    have hpp := PreparedActivation.eq_of_perm hdata hperm
    exact ⟨by rw [hpp], by rw [hpp], hpp⟩
  · intro p p' hinj hsession
    have hdata := PreparedActivation.activationData_eq_of_sessionHash hinj
      Set.subset_union_left Set.subset_union_right hsession
    have hoffer := PreparedActivation.offer_eq_of_activationData hinj
      Set.subset_union_left Set.subset_union_right hdata
    have htickets := PreparedActivation.ticketData_eq_of_activationData hinj
      Set.subset_union_left Set.subset_union_right hdata
    have hsigners : p.signers = p'.signers := by
      have := congrArg (List.map TicketData.signer) htickets
      rwa [List.map_map, List.map_map] at this
    refine ⟨congrArg Offer.data hoffer, htickets, ?_⟩
    rw [PreparedActivation.ensemble, PreparedActivation.ensemble, hsigners]
  · intro b
    obtain ⟨e, he⟩ := b.exists_ensemble
    refine ⟨e, b.sortedKeys.map (·.2), he, b.participantBlsKeys_eq_ok, ?_, ?_,
      ExecutionBinding.selectedParticipants_eq he⟩
    · rw [ExecutionBinding.peers_eq_map_sortedKeys he, List.length_map, List.length_map]
    · intro peer hpeer
      obtain ⟨⟨peer, key⟩, hmem, rfl⟩ := List.mem_map.1 (b.sortedKeys_perm.mem_iff.2 hpeer)
      obtain ⟨j, hget⟩ := List.mem_iff_getElem?.1 hmem
      obtain ⟨i, rfl, hof⟩ := ExecutionBinding.participantOf_getElem he hget
      exact ⟨i, key, hof, b.participantKey_eq_ok.2 hmem, by rw [List.getElem?_map, hget]; rfl⟩

theorem Sample.injOn_preimages : Set.InjOn referencePrimitives.blake3
    (Sample.prepared.preimages ∪ Sample.resignedActivation.prepared.preimages) := by
  have hmem : ∀ bytes ∈ Sample.prepared.preimages ∪ Sample.resignedActivation.prepared.preimages,
      bytes ∈ Sample.activationData.signingBytes ::
        Sample.offerData.signingBytes :: Sample.tickets.map (·.data.signingBytes) := by
    intro bytes hbytes
    obtain (rfl | rfl | ⟨t, ht, rfl⟩) | (rfl | rfl | ⟨t, ht, rfl⟩) := hbytes
    · exact List.mem_cons_self
    · exact List.mem_cons_of_mem _ List.mem_cons_self
    · exact List.mem_cons_of_mem _ (List.mem_cons_of_mem _ (List.mem_map_of_mem ht))
    · exact List.mem_cons_self
    · exact List.mem_cons_of_mem _ List.mem_cons_self
    · have hdata : Sample.resignedActivation.prepared.tickets.map (·.data) =
          Sample.tickets.map (·.data) := by decide +kernel
      have hbytes := congrArg (List.map TicketData.signingBytes) hdata
      rw [List.map_map, List.map_map] at hbytes
      refine List.mem_cons_of_mem _ (List.mem_cons_of_mem _ ?_)
      change _ ∈ Sample.tickets.map (TicketData.signingBytes ∘ Ticket.data)
      rw [← hbytes]
      exact List.mem_map_of_mem (f := TicketData.signingBytes ∘ Ticket.data) ht
  intro x hx y hy heq
  exact List.inj_on_of_nodup_map (f := referencePrimitives.blake3) (by decide +kernel) (hmem x hx)
    (hmem y hy) heq

open Sample in
/-- A second signature under one ticket leaves the session and its participant order. -/
theorem session_identity_one_order_resigned :
    prepared.tickets ≠ resignedActivation.prepared.tickets ∧
      prepared.ensemble = resignedActivation.prepared.ensemble ∧
      ∃ e keys, Sample.binding.ensemble = .ok e ∧ Sample.binding.participantBlsKeys = .ok keys ∧
        keys.length = e.peers.length := by
  have h := session_identity_one_order referencePrimitives
  obtain ⟨-, -, hensemble⟩ := h.2.1 prepared resignedActivation.prepared
    injOn_preimages rfl
  obtain ⟨e, keys, he, hkeys, hlength, -⟩ := h.2.2 Sample.binding
  exact ⟨by decide +kernel, hensemble, e, keys, he, hkeys, hlength⟩

end Arena0
