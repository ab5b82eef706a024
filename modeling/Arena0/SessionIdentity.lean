import Arena0.Binding

/-!
# What a session hash identifies

Without a collision the session hash determines the activation preimage, the
preimage determines the terms of the offer and the data of its tickets, and these
determine the participants and their execution keys.  Only the signatures of the
tickets and the collective signature are left open.
-/

namespace Arena0

open Borsh Fallible

variable {κ : Primitives}

theorem TicketSet.map_hash {offer : Offer κ} {tickets : List Ticket} (h : TicketSet offer tickets) :
    tickets.map (fun t => TicketHash.of κ t.data) = offer.tickets := by
  refine List.ext_getElem (by simpa using h.length_offer) ?_
  intro i hi hi'
  have hlt : i < tickets.length := by simpa using hi
  rw [List.getElem_map]
  refine h.hashes (tickets[i], offer.tickets[i]) ?_
  rw [← List.getElem_zip (h := by simp [hlt, hi'])]
  exact List.getElem_mem _

namespace ActivationData

theorem codec_valid {d : ActivationData} (h : d.tickets.length ≤ maxParticipants) :
    codec.valid d = true := by
  have hmax : maxParticipants ≤ 256 ^ 4 - 1 := by decide
  simpa [codec, Codec.u16, Codec.word] using ticketHashesCodec_valid (l := d.tickets) (by omega)

end ActivationData

namespace PreparedActivation

def preimages (p : PreparedActivation κ) : Set Bytes :=
  insert p.activationData.signingBytes (insert p.offer.data.signingBytes
    { bytes | ∃ t ∈ p.tickets, bytes = t.data.signingBytes })

theorem codec_valid_activationData (p : PreparedActivation κ) :
    ActivationData.codec.valid p.activationData = true := by
  refine ActivationData.codec_valid ?_
  rw [p.activationData_parts, ← p.ticketSet.length_offer]
  exact p.ticketSet.bounds.2

section

variable {p q : PreparedActivation κ} {S : Set Bytes} (hinj : Set.InjOn κ.blake3 S)
  (hp : p.preimages ⊆ S) (hq : q.preimages ⊆ S)

include hinj hp hq

theorem activationData_eq_of_sessionHash (h : p.sessionHash = q.sessionHash) :
    p.activationData = q.activationData := by
  rw [p.sessionHash_eq, q.sessionHash_eq] at h
  have hbytes := hinj (hp (Set.mem_insert _ _)) (hq (Set.mem_insert _ _)) (Id.mk.inj h)
  exact ActivationData.codec.encode_inj p.codec_valid_activationData q.codec_valid_activationData
    hbytes

theorem offer_eq_of_activationData (h : p.activationData = q.activationData) :
    p.offer = q.offer := by
  rw [p.activationData_parts, q.activationData_parts] at h
  obtain ⟨-, -, hoffer, htickets⟩ := ActivationData.mk.inj h
  have hbytes := hinj (hp (Set.mem_insert_of_mem _ (Set.mem_insert _ _)))
    (hq (Set.mem_insert_of_mem _ (Set.mem_insert _ _))) (Id.mk.inj hoffer)
  have hdata := OfferData.signingBytes_injective hbytes
  cases hpo : p.offer
  cases hqo : q.offer
  rw [hpo, hqo] at hdata htickets
  exact congrArg₂ Offer.mk hdata htickets

theorem ticketData_eq_of_activationData (h : p.activationData = q.activationData) :
    p.tickets.map (·.data) = q.tickets.map (·.data) := by
  have hhashes : p.tickets.map (fun t => TicketHash.of κ t.data) =
      q.tickets.map (fun t => TicketHash.of κ t.data) := by
    rw [p.activationData_parts, q.activationData_parts] at h
    rw [p.ticketSet.map_hash, q.ticketSet.map_hash]
    exact (ActivationData.mk.inj h).2.2.2
  have hlength := congrArg List.length hhashes
  simp only [List.length_map] at hlength
  refine List.ext_getElem (by simpa using hlength) ?_
  intro i hi hi'
  simp only [List.length_map] at hi hi'
  rw [List.getElem_map, List.getElem_map]
  have hhash := congrArg (·[i]?) hhashes
  simp only [List.getElem?_map, List.getElem?_eq_getElem hi, List.getElem?_eq_getElem hi',
    Option.map_some, Option.some.injEq] at hhash
  exact TicketData.signingBytes_injective
    (hinj (hp (.inr (.inr ⟨_, List.getElem_mem hi, rfl⟩)))
      (hq (.inr (.inr ⟨_, List.getElem_mem hi', rfl⟩))) (Id.mk.inj hhash))

end

end PreparedActivation

namespace ExecutionBinding

variable {b b' : ExecutionBinding κ}

theorem sortedKeys_eq_of_ticketData
    (h : b.activation.tickets.map (·.data) = b'.activation.tickets.map (·.data)) :
    b.sortedKeys = b'.sortedKeys := by
  have hkeys := congrArg (List.filterMap fun data => ticketKey? ⟨data, 0⟩) h
  rw [List.filterMap_map, List.filterMap_map] at hkeys
  unfold sortedKeys
  exact congrArg _ hkeys

end ExecutionBinding

end Arena0
