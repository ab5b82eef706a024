import Arena0.ParticipantOrder

/-!
# Gossip and activation announcements

The facts peers gossip while they negotiate, and the envelope around them.  The
creator announces an activation by its offer and its collective signature; whoever
has prepared the same offer recovers the activation from that.
-/

namespace Arena0

open Borsh Fallible

inductive GossipError where
  | negotiation (error : NegotiationError)
  | scopeMismatch (kind : String)
  | decode (message : String)
  deriving DecidableEq

inductive AnnouncementError where
  | activation (error : ActivationError)
  | announcementMismatch
  deriving DecidableEq

/-- Read one bounded value that spans the whole input, and validate it. -/
def decodeBounded {α : Type} (codec : Codec α) (validate : α → Except GossipError Unit)
    (bytes : Bytes) : Except GossipError α := do
  ensure (bytes.length ≤ maxNegotiationFactBytes)
    (.negotiation (.factTooLarge maxNegotiationFactBytes bytes.length))
  let value ← okOr (codec.fromSlice bytes) (.decode "invalid negotiation value")
  validate value
  return value

/-! ## Activation signatures and counteroffers -/

def activationSigDomain : FixedBytes 24 := .padded 24 (Codec.utf8 "arena0/activation-sig/v1")
def activationSigVersion : UInt16 := 1

structure ActivationSignature where
  domain : FixedBytes 24
  version : UInt16
  sessionHash : SessionHash
  ticketHash : TicketHash
  signature : BlsSignature
  deriving DecidableEq

namespace ActivationSignature

def codec : Codec ActivationSignature :=
  ((Codec.fixed 24).pair <| Codec.u16.pair <| Id.codec.pair <| Id.codec.pair
    (Codec.fixed 48)).equiv
  { toFun := fun (a, b, c, d, e) => ⟨a, b, c, d, e⟩
    invFun := fun s => (s.domain, s.version, s.sessionHash, s.ticketHash, s.signature) }

def validate (s : ActivationSignature) : Except NegotiationError Unit := do
  checkDomain "activation signature" s.domain activationSigDomain
  checkVersion "activation signature" s.version activationSigVersion
  checkFactSize (codec.encode s).length

end ActivationSignature

def counterofferDomain : FixedBytes 24 := .padded 24 (Codec.utf8 "arena0/counteroffer/v1")
def counterofferVersion : UInt16 := 1

/-- The parameters a participant would accept, for a bounded time. -/
structure CounterofferData where
  domain : FixedBytes 24
  version : UInt16
  negotiationId : NegotiationId
  signer : PeerId
  params : Bytes
  issuedAtUnixMs : UInt64
  validForMs : UInt32
  deriving DecidableEq

structure Counteroffer where
  data : CounterofferData
  signature : Ed25519Signature
  deriving DecidableEq

namespace CounterofferData

def codec : Codec CounterofferData :=
  ((Codec.fixed 24).pair <| Codec.u16.pair <| Id.codec.pair <| Id.codec.pair <|
    (Codec.byteVec _ u32Max_lt).pair <| Codec.u64.pair Codec.u32).equiv
  { toFun := fun (a, b, c, d, e, f, g) => ⟨a, b, c, d, e, f, g⟩
    invFun := fun d => (d.domain, d.version, d.negotiationId, d.signer, d.params,
      d.issuedAtUnixMs, d.validForMs) }

def validate (d : CounterofferData) : Except NegotiationError Unit := do
  checkDomain "counteroffer" d.domain counterofferDomain
  checkVersion "counteroffer" d.version counterofferVersion
  checkParamsLen d.params.length
  ensure (d.validForMs.toNat ≤ maxTicketLifetimeMs)
    (.ticketLifetimeTooLong d.validForMs.toNat maxTicketLifetimeMs)

def signingBytes (d : CounterofferData) : Bytes := codec.encode d

end CounterofferData

/-- The counteroffer identity; the signature is not part of it. -/
def CounterofferHash.of (κ : Primitives) (d : CounterofferData) : FixedBytes 32 :=
  κ.blake3 d.signingBytes

namespace Counteroffer

def codec : Codec Counteroffer :=
  (CounterofferData.codec.pair (Codec.fixed 64)).equiv
  { toFun := fun (a, b) => ⟨a, b⟩
    invFun := fun c => (c.data, c.signature) }

def validate (c : Counteroffer) : Except NegotiationError Unit := do
  c.data.validate
  checkFactSize (codec.encode c).length

def verifyIdentity (κ : Primitives) (c : Counteroffer) : Except CryptoError Bool :=
  verifyIdentitySignature κ c.data.signer c.data.signingBytes c.signature

end Counteroffer

/-! ## Announcements -/

variable (κ : Primitives)

structure ActivationAnnouncement where
  offer : Offer κ
  aggregate : BlsSignature
  deriving DecidableEq

variable {κ}

namespace ActivationAnnouncement

def encodingVersion : UInt8 := 1

def encode (a : ActivationAnnouncement κ) : Bytes :=
  encodingVersion :: (a.offer.encode ++ a.aggregate.bytes)

def validate (a : ActivationAnnouncement κ) : Except ActivationError Unit := do
  a.offer.validate.mapError .invalidOffer
  ensure (a.offer.isComplete = true) .ticketSetMismatch
  (checkFactSize a.encode.length).mapError .invalidOffer

def fromActivation (a : Activation κ) : ActivationAnnouncement κ :=
  ⟨a.prepared.offer, a.aggregate⟩

/-- The reader validates every announcement it decodes. -/
def codec : Codec (ActivationAnnouncement κ) :=
  ((Codec.u8.pair <| (Offer.codec (κ := κ)).pair (Codec.fixed 48)).partialInv
    (fun a => (encodingVersion, a.offer, a.aggregate))
    (fun (version, offer, aggregate) =>
      if version = encodingVersion then some (ActivationAnnouncement.mk offer aggregate) else none)
    (fun _ => if_pos rfl)).guarded fun a => a.validate.isOk

def decode (bytes : Bytes) : Except GossipError (ActivationAnnouncement κ) :=
  decodeBounded codec (fun a => a.validate.mapError fun error => .decode (toString error)) bytes

end ActivationAnnouncement

/-- Combine an announcement with the prepared evidence of the same offer. -/
def Activation.fromAnnouncement (prepared : PreparedActivation κ)
    (announcement : ActivationAnnouncement κ) : Except AnnouncementError (Activation κ) := do
  ensure (prepared.offer = announcement.offer) .announcementMismatch
  (Activation.new prepared announcement.aggregate).mapError .activation

/-! ## The envelope -/

variable (κ) in
/-- One negotiation fact. -/
inductive NegotiationFact where
  | offer (offer : Offer κ)
  | ticket (ticket : Ticket)
  | activationSignature (signature : ActivationSignature)
  | counteroffer (counteroffer : Counteroffer)
  | activationAnnouncement (announcement : ActivationAnnouncement κ)
  deriving DecidableEq

namespace NegotiationFact

def codec : Codec (NegotiationFact κ) :=
  (Codec.enum (.cons (Offer.codec (κ := κ)) (.cons Ticket.codec (.cons ActivationSignature.codec
    (.cons Counteroffer.codec (.last (ActivationAnnouncement.codec (κ := κ)))))))).equiv
  { toFun := fun
      | .inl o => .offer o
      | .inr (.inl t) => .ticket t
      | .inr (.inr (.inl s)) => .activationSignature s
      | .inr (.inr (.inr (.inl c))) => .counteroffer c
      | .inr (.inr (.inr (.inr a))) => .activationAnnouncement a
    invFun := fun
      | .offer o => .inl o
      | .ticket t => .inr (.inl t)
      | .activationSignature s => .inr (.inr (.inl s))
      | .counteroffer c => .inr (.inr (.inr (.inl c)))
      | .activationAnnouncement a => .inr (.inr (.inr (.inr a)))
    left_inv := by rintro (_ | _ | _ | _ | _) <;> rfl
    right_inv := by rintro (_ | _ | _ | _ | _) <;> rfl }

def validate : NegotiationFact κ → Except GossipError Unit
  | .offer o => o.validate.mapError .negotiation
  | .ticket t => t.validate.mapError .negotiation
  | .activationSignature s => s.validate.mapError .negotiation
  | .counteroffer c => c.validate.mapError .negotiation
  | .activationAnnouncement a =>
    a.validate.mapError fun error => .decode (toString error)

/-- An activation signature carries no negotiation. -/
def negotiationId : NegotiationFact κ → Option NegotiationId
  | .offer o => some o.data.negotiationId
  | .ticket t => some t.data.negotiationId
  | .activationSignature _ => none
  | .counteroffer c => some c.data.negotiationId
  | .activationAnnouncement a => some a.offer.data.negotiationId

end NegotiationFact

def negotiationGossipDomain : FixedBytes 24 := .padded 24 (Codec.utf8 "arena0/form-gossip/v1")
def negotiationGossipVersion : UInt16 := 1

variable (κ) in
/-- The envelope around one fact. -/
structure NegotiationGossip where
  domain : FixedBytes 24
  version : UInt16
  programId : ProgramHash
  negotiationId : NegotiationId
  fact : NegotiationFact κ
  deriving DecidableEq

namespace NegotiationGossip

def new (programId : ProgramHash) (negotiationId : NegotiationId) (fact : NegotiationFact κ) :
    NegotiationGossip κ :=
  ⟨negotiationGossipDomain, negotiationGossipVersion, programId, negotiationId, fact⟩

def codec : Codec (NegotiationGossip κ) :=
  ((Codec.fixed 24).pair <| Codec.u16.pair <| Id.codec.pair <| Id.codec.pair
    (NegotiationFact.codec (κ := κ))).equiv
  { toFun := fun (a, b, c, d, e) => ⟨a, b, c, d, e⟩
    invFun := fun g => (g.domain, g.version, g.programId, g.negotiationId, g.fact) }

def signingBytes (g : NegotiationGossip κ) : Bytes := codec.encode g

def validate (g : NegotiationGossip κ) : Except GossipError Unit := do
  (checkDomain "negotiation gossip" g.domain negotiationGossipDomain).mapError .negotiation
  (checkVersion "negotiation gossip" g.version negotiationGossipVersion).mapError .negotiation
  g.fact.validate
  ensure (∀ id ∈ g.fact.negotiationId, id = g.negotiationId) (.scopeMismatch "negotiation fact")
  (checkFactSize g.signingBytes.length).mapError .negotiation

def decode (bytes : Bytes) : Except GossipError (NegotiationGossip κ) :=
  decodeBounded codec validate bytes

end NegotiationGossip

/-! ## Sizes -/

private theorem Offer.within_terms {o : Offer κ} (h : o.validate = .ok ()) :
    (Offer.codec (κ := κ)).Within 3284 o := by
  have hvalid := h
  simp only [Offer.validate, OfferData.validate, checkParamsLen, checkTargetSize, bind_eq_ok,
    ensure_eq_ok] at h
  obtain ⟨_, ⟨_, -, _, -, _, hparams, -, hsize⟩, _, ⟨-, htickets⟩, -⟩ := h
  have hjson : (JsonBytes.codec κ).Within (4 + maxParamsLen) o.data.params :=
    Codec.Within.partialInv (Codec.within_byteVec (by decide) hparams (by decide))
  have hhashes : ticketHashesCodec.Within (4 + maxParticipants * 32) o.tickets :=
    Codec.within_vec _ (htickets.trans hsize) (by decide) fun hash _ => Id.within hash
  have hdata : (OfferData.codec κ).Within 1232 o.data := Codec.Within.equiv <|
    (Codec.within_fixed 24 o.data.domain).pair <| (Codec.within_u16 o.data.version).pair <|
    (Id.within o.data.negotiationId).pair <| (Codec.within_u64 o.data.offerSeq).pair <|
    (Id.within o.data.creator).pair <| (Id.within o.data.programHash).pair <|
    (Id.within o.data.executionProfile).pair <| hjson.pair <|
    (Codec.within_u16 o.data.targetSize).pair <| (Id.within o.data.initialState).pair
    (Codec.within_u64 o.data.deadlineUnixMs)
  exact Codec.Within.guarded (Codec.Within.equiv (hdata.pair hhashes)) (by rw [hvalid]; rfl)

namespace ActivationAnnouncement

variable {a : ActivationAnnouncement κ}

theorem validate_eq_ok : a.validate = .ok () ↔
    a.offer.validate = .ok () ∧ a.offer.isComplete = true := by
  simp only [validate, bind_eq_ok, mapError_eq_ok, ensure_eq_ok, checkFactSize]
  constructor
  · rintro ⟨_, hoffer, _, hcomplete, -⟩
    exact ⟨hoffer, hcomplete⟩
  · rintro ⟨hoffer, hcomplete⟩
    refine ⟨(), hoffer, (), hcomplete, ?_⟩
    have hle : a.offer.encode.length ≤ 3284 := (Offer.within_terms hoffer).length_le
    have haggregate := a.aggregate.length_eq
    have hmax : maxNegotiationFactBytes = 4096 := rfl
    simp only [encode, List.length_cons, List.length_append, haggregate]
    omega

theorem within (h : a.validate = .ok ()) : codec.Within 3333 a :=
  Codec.Within.guarded (Codec.Within.partialInv <| (Codec.within_u8 encodingVersion).pair <|
    (Offer.within_terms (validate_eq_ok.1 h).1).pair (Codec.within_fixed 48 a.aggregate))
    (by rw [h]; rfl)

theorem fromActivation_validate (a : Activation κ) : (fromActivation a).validate = .ok () := by
  have h := a.prepared.activationData_eq
  simp only [activationDataFor, bind_eq_ok, mapError_eq_ok, ensure_eq_ok] at h
  obtain ⟨_, hoffer, _, hcomplete, -⟩ := h
  exact validate_eq_ok.2 ⟨hoffer, hcomplete⟩

end ActivationAnnouncement

theorem decodeBounded_encode {α : Type} {codec : Codec α} {validate : α → Except GossipError Unit}
    {a : α} {n : ℕ} (h : codec.Within n a) (hn : n ≤ maxNegotiationFactBytes)
    (hvalid : validate a = .ok ()) : decodeBounded codec validate (codec.encode a) = .ok a := by
  simp only [decodeBounded, bind_eq_ok, ensure_eq_ok, okOr_eq_ok, pure_eq_ok]
  exact ⟨(), h.length_le.trans hn, a, codec.fromSlice_encode h.valid, (), hvalid, rfl⟩

namespace NegotiationGossip

variable {a : ActivationAnnouncement κ} {programId : ProgramHash}

def ofAnnouncement (programId : ProgramHash) (a : ActivationAnnouncement κ) : NegotiationGossip κ :=
  new programId a.offer.data.negotiationId (.activationAnnouncement a)

theorem within (programId : ProgramHash) (h : a.validate = .ok ()) :
    codec.Within 3424 (ofAnnouncement programId a) := by
  have hfact : (NegotiationFact.codec (κ := κ)).Within (1 + 3333) (.activationAnnouncement a) := by
    have hannouncement := ActivationAnnouncement.within h
    exact Codec.Within.equiv (Codec.within_enum hannouncement.valid hannouncement.length_le)
  exact Codec.Within.equiv <| (Codec.within_fixed 24 _).pair <| (Codec.within_u16 _).pair <|
    (Id.within _).pair <| (Id.within _).pair hfact

theorem validate_announcement (h : a.validate = .ok ()) :
    (ofAnnouncement programId a).validate = .ok () := by
  have hlength := (within programId h).length_le
  have hmax : maxNegotiationFactBytes = 4096 := rfl
  simp only [validate, bind_eq_ok, mapError_eq_ok, ensure_eq_ok, checkDomain, checkVersion,
    checkFactSize]
  refine ⟨(), rfl, (), rfl, (), ?_, (), ?_, ?_⟩
  · simp only [ofAnnouncement, new, NegotiationFact.validate, h]
    rfl
  · intro id hid
    exact (Option.some.inj hid).symm
  · exact hlength.trans (by omega)

end NegotiationGossip

/-! ## Recovery -/

theorem validateActivation_congr {p q : PreparedActivation κ} {aggregate : BlsSignature}
    (hoffer : p.offer = q.offer) (hdata : p.tickets.map (·.data) = q.tickets.map (·.data))
    (h : validateActivation p aggregate = .ok ()) : validateActivation q aggregate = .ok () := by
  have hpre : p.activationData = q.activationData := by
    rw [p.activationData_parts, q.activationData_parts, hoffer]
  simp only [validateActivation, bind_eq_ok] at h ⊢
  obtain ⟨_, -, ok, hverify, hok⟩ := h
  rw [hpre, ticketKeys_eq_of_data hdata] at hverify
  exact ⟨_, q.activationData_eq, ok, hverify, hok⟩

theorem Activation.fromAnnouncement_eq_ok {prepared : PreparedActivation κ}
    {announcement : ActivationAnnouncement κ} {a : Activation κ} (hp : a.prepared = prepared)
    (hoffer : prepared.offer = announcement.offer)
    (haggregate : a.aggregate = announcement.aggregate) :
    fromAnnouncement prepared announcement = .ok a := by
  simp only [fromAnnouncement, bind_eq_ok, ensure_eq_ok, mapError_eq_ok]
  exact ⟨(), hoffer, by rw [← hp, ← haggregate, a.new_parts]⟩

theorem Activation.fromAnnouncement_mismatch {prepared : PreparedActivation κ}
    {announcement : ActivationAnnouncement κ} (h : prepared.offer ≠ announcement.offer) :
    fromAnnouncement prepared announcement = .error .announcementMismatch := by
  rw [fromAnnouncement, ensure, if_neg h]
  rfl

theorem PreparedActivation.ticketData_eq_of_offer {p q : PreparedActivation κ}
    (hinj : Set.InjOn κ.blake3 (p.preimages ∪ q.preimages)) (h : p.offer = q.offer) :
    p.tickets.map (·.data) = q.tickets.map (·.data) := by
  refine ticketData_eq_of_activationData hinj Set.subset_union_left Set.subset_union_right ?_
  rw [p.activationData_parts, q.activationData_parts, h]

open ActivationAnnouncement NegotiationGossip Activation in
/-- Every activation can be announced and recovered from its announcement.  The announcement
and its envelope validate, fit one gossip frame and are read back.  The prepared evidence of the
activation gives it back; evidence with another offer or other ticket data is refused, and evidence
that differs in the signatures under its tickets only gives an activation of the same session. -/
theorem activation_announced_and_recovered (a : Activation κ) :
    (fromActivation a).validate = .ok () ∧
    (codec.encode (fromActivation a)).length ≤ maxNegotiationFactBytes ∧
    ActivationAnnouncement.decode (codec.encode (fromActivation a)) = .ok (fromActivation a) ∧
    (∀ programId,
      (ofAnnouncement programId (fromActivation a)).validate = .ok () ∧
      (ofAnnouncement programId (fromActivation a)).signingBytes.length ≤
        maxNegotiationFactBytes ∧
      NegotiationGossip.decode (ofAnnouncement programId (fromActivation a)).signingBytes =
        .ok (ofAnnouncement programId (fromActivation a))) ∧
    fromAnnouncement a.prepared (fromActivation a) = .ok a ∧
    (∀ prepared : PreparedActivation κ, prepared.offer ≠ a.offer →
      fromAnnouncement prepared (fromActivation a) = .error .announcementMismatch) ∧
    ∀ prepared : PreparedActivation κ,
      Set.InjOn κ.blake3 (a.prepared.preimages ∪ prepared.preimages) →
      (prepared.tickets.map (·.data) ≠ a.tickets.map (·.data) →
        fromAnnouncement prepared (fromActivation a) = .error .announcementMismatch) ∧
      (prepared.offer = a.offer → ∃ a', fromAnnouncement prepared (fromActivation a) = .ok a' ∧
        a'.prepared = prepared ∧ a'.sessionHash = a.sessionHash) := by
  have hvalid := fromActivation_validate a
  have hannouncement := ActivationAnnouncement.within hvalid
  refine ⟨hvalid, hannouncement.length_le.trans (by decide), ?_, fun programId => ?_,
    fromAnnouncement_eq_ok rfl rfl rfl, fun prepared h => fromAnnouncement_mismatch h,
    fun prepared hinj => ⟨fun hne => ?_, fun hoffer => ?_⟩⟩
  · exact decodeBounded_encode hannouncement (by decide) (by rw [hvalid]; rfl)
  · have hgossip := NegotiationGossip.within programId hvalid
    exact ⟨validate_announcement hvalid, hgossip.length_le.trans (by decide),
      decodeBounded_encode hgossip (by decide) (validate_announcement hvalid)⟩
  · refine fromAnnouncement_mismatch fun hoffer => hne ?_
    exact (PreparedActivation.ticketData_eq_of_offer hinj hoffer.symm).symm
  · have hdata := PreparedActivation.ticketData_eq_of_offer hinj hoffer.symm
    refine ⟨⟨prepared, a.aggregate, validateActivation_congr hoffer.symm hdata a.valid⟩,
      fromAnnouncement_eq_ok rfl hoffer rfl, rfl, ?_⟩
    change prepared.sessionHash = a.prepared.sessionHash
    rw [prepared.sessionHash_eq, a.prepared.sessionHash_eq, prepared.activationData_parts,
      a.prepared.activationData_parts, hoffer]
    rfl

open Sample in
/-- The second signature under one ticket is another ticket list of the same offer. -/
theorem activation_recovered_resigned :
    resignedActivation.prepared.tickets ≠ activation.tickets ∧
      ∃ a', Activation.fromAnnouncement resignedActivation.prepared
          (ActivationAnnouncement.fromActivation activation) = .ok a' ∧
        a'.prepared = resignedActivation.prepared ∧
        a'.sessionHash = activation.sessionHash := by
  obtain ⟨-, -, -, -, -, -, h⟩ := activation_announced_and_recovered activation
  exact ⟨by decide +kernel,
    (h resignedActivation.prepared injOn_preimages).2 rfl⟩

/-- An announcement does not tell ticket signatures apart: evidence with another list of tickets
for the same offer is accepted. -/
theorem announcement_accepts_other_tickets :
    Sample.resignedActivation.prepared.tickets ≠ Sample.activation.prepared.tickets ∧
      Activation.fromAnnouncement Sample.resignedActivation.prepared
        (ActivationAnnouncement.fromActivation Sample.activation) =
          .ok Sample.resignedActivation :=
  ⟨by decide +kernel, Activation.fromAnnouncement_eq_ok rfl rfl rfl⟩

end Arena0
