import Arena0.Negotiation

/-!
# Activations, ensembles and execution bindings

An activation is the frozen offer with its exact ticket set and the collective
signature of all participants.  The source makes its fields private and builds
it through validating constructors only, so the structures here carry the
checks as fields.
-/

namespace Arena0

open Borsh Fallible

/-! ## The activation preimage -/

def activationDomain : FixedBytes 24 := .padded 24 (Codec.utf8 "arena0/activation/v1")
def activationVersion : UInt16 := 1

structure ActivationData where
  domain : FixedBytes 24
  version : UInt16
  offerHash : OfferHash
  tickets : List TicketHash
  deriving DecidableEq

namespace ActivationData

def validate (d : ActivationData) : Except NegotiationError Unit := do
  checkDomain "activation" d.domain activationDomain
  checkVersion "activation" d.version activationVersion
  ensure (2 ≤ d.tickets.length ∧ d.tickets.length ≤ maxParticipants)
    (.ticketCount d.tickets.length 2 maxParticipants)
  checkDistinct [] d.tickets

def new (offerHash : OfferHash) (tickets : List TicketHash) :
    Except NegotiationError ActivationData := do
  let data : ActivationData := ⟨activationDomain, activationVersion, offerHash, tickets⟩
  data.validate
  return data

def codec : Codec ActivationData :=
  ((Codec.fixed 24).pair <| Codec.u16.pair <| Id.codec.pair ticketHashesCodec).equiv
  { toFun := fun (a, b, c, d) => ⟨a, b, c, d⟩
    invFun := fun d => (d.domain, d.version, d.offerHash, d.tickets) }

def signingBytes (d : ActivationData) : Bytes := codec.encode d

end ActivationData

/-- The session identity: the hash of the activation preimage. -/
def SessionHash.of (κ : Primitives) (d : ActivationData) : SessionHash :=
  ⟨κ.blake3 d.signingBytes⟩

/-! ## Prepared and committed activations -/

inductive ActivationError where
  | invalidOffer (error : NegotiationError)
  | ticketSetMismatch
  | invalidOrdering
  | withdrawnTicket (hash : TicketHash)
  | invalidTicket (hash : TicketHash) (message : String)
  | invalidAttestations (message : String)
  deriving DecidableEq

variable (κ : Primitives)

def checkSelectedTicket (ticket : Ticket) (hash : TicketHash) : Except ActivationError Unit := do
  ensure (TicketHash.of κ ticket.data = hash) .ticketSetMismatch
  ticket.validate.mapError fun error =>
    .invalidTicket (TicketHash.of κ ticket.data) (toString error)
  match ticket.data.action with
  | .active .. => .ok ()
  | .withdrawn => .error (.withdrawnTicket (TicketHash.of κ ticket.data))

def checkTicketAuthentic (offerHash : OfferHash) (ticket : Ticket) :
    Except ActivationError Unit :=
  (ticket.verifyForOffer κ offerHash).mapError fun error =>
    .invalidTicket (TicketHash.of κ ticket.data) (toString error)

variable {κ}

/-- Validate the exact ordered active ticket set and its identity and key
bindings, and derive the activation preimage. -/
def activationDataFor (offer : Offer κ) (tickets : List Ticket) :
    Except ActivationError ActivationData := do
  offer.validate.mapError .invalidOffer
  ensure (offer.isComplete = true) .ticketSetMismatch
  ensure (tickets.length = offer.tickets.length ∧
    tickets.length = offer.data.targetSize.toNat) .ticketSetMismatch
  forAll (fun p => checkSelectedTicket κ p.1 p.2) (tickets.zip offer.tickets)
  ensure (tickets.head?.map (·.data.signer) = some offer.data.creator) .invalidOrdering
  ensure (tickets.map (·.data.signer)).Nodup .invalidOrdering
  ensure ((tickets.tail.map (·.data.signer)).IsChain (· < ·)) .invalidOrdering
  let data ← (ActivationData.new (OfferHash.of offer.data) offer.tickets).mapError .invalidOffer
  forAll (checkTicketAuthentic κ (OfferHash.of offer.data)) tickets
  return data

variable (κ) in
/-- The unsigned activation evidence, with the preimage and the session
identity derived from it. -/
structure PreparedActivation where
  offer : Offer κ
  tickets : List Ticket
  activationData : ActivationData
  sessionHash : SessionHash
  activationData_eq : activationDataFor offer tickets = .ok activationData
  sessionHash_eq : sessionHash = SessionHash.of κ activationData
  deriving DecidableEq

namespace PreparedActivation

def new (offer : Offer κ) (tickets : List Ticket) :
    Except ActivationError (PreparedActivation κ) :=
  match h : activationDataFor offer tickets with
  | .ok data => .ok ⟨offer, tickets, data, SessionHash.of κ data, h, rfl⟩
  | .error error => .error error

theorem ext_parts {p q : PreparedActivation κ} (ho : p.offer = q.offer)
    (ht : p.tickets = q.tickets) : p = q := by
  obtain ⟨o, t, d, s, hd, hs⟩ := p
  obtain ⟨o', t', d', s', hd', hs'⟩ := q
  subst ho ht hs hs'
  obtain rfl := Except.ok.inj (hd.symm.trans hd')
  rfl

theorem new_parts (p : PreparedActivation κ) : new p.offer p.tickets = .ok p := by
  unfold new
  split
  · exact congrArg Except.ok (ext_parts rfl rfl)
  · rename_i error h
    rw [p.activationData_eq] at h
    cases h

def signers (p : PreparedActivation κ) : List PeerId := p.tickets.map (·.data.signer)

def encodingVersion : UInt8 := 1

/-- A version byte, the offer and the tickets; the reader rebuilds the rest. -/
def codec : Codec (PreparedActivation κ) :=
  (Codec.u8.pair <| (Offer.codec (κ := κ)).pair <|
      Codec.vec _ Ticket.codec u32Max_lt).partialInv
    (fun p => (encodingVersion, p.offer, p.tickets))
    (fun (v, o, t) => if v = encodingVersion then (new o t).toOption else none)
    (fun p => by simp [new_parts, Except.toOption])

end PreparedActivation

def ticketKeys (tickets : List Ticket) : List BlsPublicKey :=
  tickets.filterMap fun ticket =>
    match ticket.data.action with
    | .active executionBls .. => some executionBls
    | .withdrawn => none

theorem ticketKeys_eq_of_data {tickets tickets' : List Ticket}
    (h : tickets.map (·.data) = tickets'.map (·.data)) :
    ticketKeys tickets = ticketKeys tickets' := by
  have hkeys : ∀ l : List Ticket, ticketKeys l = (l.map (·.data)).filterMap fun data =>
      match data.action with
      | .active executionBls .. => some executionBls
      | .withdrawn => none := by
    intro l
    rw [List.filterMap_map]
    rfl
  rw [hkeys, hkeys, h]

/-- The checks of a committed activation: the structure of its prepared
evidence and the collective signature over its preimage. -/
def validateActivation (prepared : PreparedActivation κ) (aggregate : BlsSignature) :
    Except ActivationError Unit := do
  let _ ← activationDataFor prepared.offer prepared.tickets
  let ok ← (fastAggregateVerify κ aggregate prepared.activationData.signingBytes
    (ticketKeys prepared.tickets)).mapError fun error => .invalidAttestations (toString error)
  ensure (ok = true)
    (.invalidAttestations "collective signature does not verify against the ticket set")

variable (κ) in
/-- A committed activation. -/
structure Activation where
  prepared : PreparedActivation κ
  aggregate : BlsSignature
  valid : validateActivation prepared aggregate = .ok ()
  deriving DecidableEq

namespace Activation

def new (prepared : PreparedActivation κ) (aggregate : BlsSignature) :
    Except ActivationError (Activation κ) :=
  match h : validateActivation prepared aggregate with
  | .ok () => .ok ⟨prepared, aggregate, h⟩
  | .error error => .error error

theorem new_parts (a : Activation κ) : new a.prepared a.aggregate = .ok a := by
  unfold new
  split
  · rfl
  · rename_i error h
    rw [a.valid] at h
    cases h

def validate (a : Activation κ) : Except ActivationError Unit :=
  validateActivation a.prepared a.aggregate

@[simp] theorem validate_eq_ok (a : Activation κ) : a.validate = .ok () := a.valid

def offer (a : Activation κ) : Offer κ := a.prepared.offer
def tickets (a : Activation κ) : List Ticket := a.prepared.tickets
def sessionHash (a : Activation κ) : SessionHash := a.prepared.sessionHash

def encodingVersion : UInt8 := 1

def codec : Codec (Activation κ) :=
  (Codec.u8.pair <| (PreparedActivation.codec (κ := κ)).pair (Codec.fixed 48)).partialInv
    (fun a => (encodingVersion, a.prepared, a.aggregate))
    (fun (v, p, s) => if v = encodingVersion then (new p s).toOption else none)
    (fun a => by simp [new_parts, Except.toOption])

end Activation

end Arena0
