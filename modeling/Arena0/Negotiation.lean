import Arena0.Primitives

/-!
# Offers and tickets

The terms of a session and the signed key certificates of its participants,
with the structural checks and the canonical bytes they are hashed from.
-/

namespace Arena0

open Borsh Fallible

def hexEncode (b : Bytes) : String :=
  String.ofList (b.flatMap fun x => [hexDigit (x.toNat / 16), hexDigit (x.toNat % 16)])
where
  hexDigit (n : ℕ) : Char := Nat.digitChar n

instance {k : IdKind} : ToString (Id k) := ⟨fun a => hexEncode a.bytes.bytes⟩

instance : ToString CryptoError :=
  ⟨fun | .verificationFailed message => s!"verification failed: {message}"⟩

/-- Why a negotiation value failed bounded structural validation. -/
inductive NegotiationError where
  | wrongDomain (kind : String) (domain : FixedBytes 24)
  | wrongVersion (kind : String) (version : UInt16)
  | invalidTargetSize (targetSize max : ℕ)
  | paramsTooLarge (max len : ℕ)
  | factTooLarge (max len : ℕ)
  | ticketLifetimeTooLong (lifetimeMs maxLifetimeMs : ℕ)
  | ticketCount (actual min max : ℕ)
  | duplicateTicketHash (hash : TicketHash)
  deriving DecidableEq

instance : ToString NegotiationError where
  toString
    | .wrongDomain kind domain => s!"{kind} uses domain {domain.bytes.map UInt8.toNat}"
    | .wrongVersion kind version => s!"{kind} uses version {version}, expected 1"
    | .invalidTargetSize size max =>
      s!"negotiation target size {size} outside allowed range 2..={max}"
    | .paramsTooLarge max len => s!"offer params exceed {max} bytes, got {len}"
    | .factTooLarge max len => s!"negotiation fact exceeds {max} bytes, got {len}"
    | .ticketLifetimeTooLong lifetime max =>
      s!"ticket lifetime {lifetime} ms exceeds the {max} ms cap"
    | .ticketCount actual min max =>
      s!"activation ticket count {actual} outside allowed range {min}..={max}"
    | .duplicateTicketHash hash => s!"duplicate ticket hash in negotiation value: {hash}"

def checkDomain (kind : String) (actual expected : FixedBytes 24) : Except NegotiationError Unit :=
  ensure (actual = expected) (.wrongDomain kind actual)

def checkVersion (kind : String) (actual expected : UInt16) : Except NegotiationError Unit :=
  ensure (actual = expected) (.wrongVersion kind actual)

def checkTargetSize (targetSize : UInt16) : Except NegotiationError Unit :=
  ensure (2 ≤ targetSize.toNat ∧ targetSize.toNat ≤ maxParticipants)
    (.invalidTargetSize targetSize.toNat maxParticipants)

def checkParamsLen (len : ℕ) : Except NegotiationError Unit :=
  ensure (len ≤ maxParamsLen) (.paramsTooLarge maxParamsLen len)

def checkFactSize (len : ℕ) : Except NegotiationError Unit :=
  ensure (len ≤ maxNegotiationFactBytes) (.factTooLarge maxNegotiationFactBytes len)

/-- Insert the hashes into a set one by one and refuse the first that is already there. -/
def checkDistinct (seen : List TicketHash) : List TicketHash → Except NegotiationError Unit
  | [] => .ok ()
  | hash :: rest => do
    ensure (hash ∉ seen) (.duplicateTicketHash hash)
    checkDistinct (hash :: seen) rest

variable (κ : Primitives)

@[ext] structure JsonBytes where
  bytes : Bytes
  bound : bytes.length ≤ maxCallPayloadBytes
  json : κ.checkJson bytes = .ok ()

instance : DecidableEq (JsonBytes κ) := fun _ _ => decidable_of_iff _ JsonBytes.ext_iff.symm

inductive JsonBytesError where
  | tooLarge (actual max : ℕ)
  | invalid (message : String)
  deriving DecidableEq

instance : ToString JsonBytesError where
  toString
    | .tooLarge actual max => s!"JSON projection is {actual} bytes; maximum is {max}"
    | .invalid message => s!"invalid JSON projection: {message}"

def JsonBytes.tryNew (bytes : Bytes) : Except JsonBytesError (JsonBytes κ) :=
  if hb : bytes.length ≤ maxCallPayloadBytes then
    match hj : κ.checkJson bytes with
    | .ok () => .ok ⟨bytes, hb, hj⟩
    | .error message => .error (.invalid message)
  else .error (.tooLarge bytes.length maxCallPayloadBytes)

theorem JsonBytes.tryNew_bytes (b : JsonBytes κ) : tryNew κ b.bytes = .ok b := by
  unfold tryNew
  rw [dif_pos b.bound]
  split
  · rfl
  · rename_i message h
    rw [b.json] at h
    cases h

def JsonBytes.codec : Codec (JsonBytes κ) :=
  (Codec.byteVec maxCallPayloadBytes).partialInv JsonBytes.bytes
    (fun bytes => (JsonBytes.tryNew κ bytes).toOption)
    (fun b => by simp [tryNew_bytes, Except.toOption])

/-! ## Offers -/

def offerDomain : FixedBytes 24 := .padded 24 (Codec.utf8 "arena0/offer/v1")
def offerVersion : UInt16 := 1

structure OfferData where
  domain : FixedBytes 24
  version : UInt16
  negotiationId : NegotiationId
  offerSeq : UInt64
  creator : PeerId
  programHash : ProgramHash
  executionProfile : ExecutionProfileHash
  params : JsonBytes κ
  targetSize : UInt16
  initialState : StateHash
  deadlineUnixMs : UInt64
  deriving DecidableEq

/-- An offer: the terms and the ticket hashes, the creator's first. -/
structure Offer where
  data : OfferData κ
  tickets : List TicketHash
  deriving DecidableEq

variable {κ}

def OfferData.validate (d : OfferData κ) : Except NegotiationError Unit := do
  checkDomain "offer" d.domain offerDomain
  checkVersion "offer" d.version offerVersion
  checkParamsLen d.params.bytes.length
  checkTargetSize d.targetSize

variable (κ) in
def OfferData.codec : Codec (OfferData κ) :=
  (((Codec.fixed 24).pair <| Codec.u16.pair <| Id.codec.pair <| Codec.u64.pair <|
    Id.codec.pair <| Id.codec.pair <| Id.codec.pair <| (JsonBytes.codec κ).pair <|
    Codec.u16.pair <| Id.codec.pair Codec.u64)).equiv
  { toFun := fun (a, b, c, d, e, f, g, h, i, j, k) => ⟨a, b, c, d, e, f, g, h, i, j, k⟩
    invFun := fun o => (o.domain, o.version, o.negotiationId, o.offerSeq, o.creator,
      o.programHash, o.executionProfile, o.params, o.targetSize, o.initialState,
      o.deadlineUnixMs) }

def OfferData.signingBytes (d : OfferData κ) : Bytes := (OfferData.codec κ).encode d

theorem OfferData.codec_valid (d : OfferData κ) : (OfferData.codec κ).valid d = true := by
  simpa [OfferData.codec, JsonBytes.codec, Codec.u16, Codec.u64, Codec.word] using d.params.bound

theorem OfferData.signingBytes_injective : Function.Injective (OfferData.signingBytes (κ := κ)) :=
  fun d d' h => (OfferData.codec κ).encode_inj d.codec_valid d'.codec_valid h

def OfferHash.of (d : OfferData κ) : OfferHash := ⟨κ.blake3 d.signingBytes⟩

def ticketHashesCodec : Codec (List TicketHash) := Codec.vec _ Id.codec u32Max_lt

theorem ticketHashesCodec_valid {l : List TicketHash} (h : l.length ≤ 256 ^ 4 - 1) :
    ticketHashesCodec.valid l = true := by
  simp only [ticketHashesCodec, Codec.vec_valid, Bool.and_eq_true, decide_eq_true_eq,
    List.all_eq_true]
  exact ⟨h, fun _ _ => rfl⟩

def Offer.encode (o : Offer κ) : Bytes :=
  (OfferData.codec κ).encode o.data ++ ticketHashesCodec.encode o.tickets

def Offer.isComplete (o : Offer κ) : Bool :=
  o.tickets.length = o.data.targetSize.toNat

def Offer.validate (o : Offer κ) : Except NegotiationError Unit := do
  o.data.validate
  let max := o.data.targetSize.toNat
  ensure (1 ≤ o.tickets.length ∧ o.tickets.length ≤ max) (.ticketCount o.tickets.length 1 max)
  checkDistinct [] o.tickets
  checkFactSize o.encode.length

def Offer.codec : Codec (Offer κ) :=
  (((OfferData.codec κ).pair ticketHashesCodec).equiv
    { toFun := fun (a, b) => (⟨a, b⟩ : Offer κ)
      invFun := fun o => (o.data, o.tickets) }).guarded fun o => o.validate.isOk

/-! ## Tickets -/

def ticketDomain : FixedBytes 24 := .padded 24 (Codec.utf8 "arena0/ticket/v2")
def ticketVersion : UInt16 := 2

inductive TicketAction where
  | active (executionBls : BlsPublicKey) (keyBinding : BlsSignature) (issuedAtUnixMs : UInt64)
      (validForMs : UInt32)
  | withdrawn
  deriving DecidableEq

structure TicketData where
  domain : FixedBytes 24
  version : UInt16
  negotiationId : NegotiationId
  offerSeq : UInt64
  signer : PeerId
  revision : UInt64
  action : TicketAction
  deriving DecidableEq

structure Ticket where
  data : TicketData
  signature : Ed25519Signature
  deriving DecidableEq

def TicketAction.codec : Codec TicketAction :=
  (Codec.enum (.cons ((Codec.fixed 96).pair <| (Codec.fixed 48).pair <|
      Codec.u64.pair Codec.u32) (.last Codec.unit))).equiv
  { toFun := fun
      | .inl (a, b, c, d) => .active a b c d
      | .inr _ => .withdrawn
    invFun := fun
      | .active a b c d => .inl (a, b, c, d)
      | .withdrawn => .inr ()
    left_inv := by rintro (_ | _) <;> rfl
    right_inv := by rintro (_ | _) <;> rfl }

def TicketData.codec : Codec TicketData :=
  ((Codec.fixed 24).pair <| Codec.u16.pair <| Id.codec.pair <| Codec.u64.pair <|
    Id.codec.pair <| Codec.u64.pair TicketAction.codec).equiv
  { toFun := fun (a, b, c, d, e, f, g) => ⟨a, b, c, d, e, f, g⟩
    invFun := fun t => (t.domain, t.version, t.negotiationId, t.offerSeq, t.signer, t.revision,
      t.action) }

def Ticket.codec : Codec Ticket :=
  (TicketData.codec.pair (Codec.fixed 64)).equiv
  { toFun := fun (a, b) => ⟨a, b⟩
    invFun := fun t => (t.data, t.signature) }

def TicketData.validate (d : TicketData) : Except NegotiationError Unit := do
  checkDomain "ticket" d.domain ticketDomain
  checkVersion "ticket" d.version ticketVersion
  match d.action with
  | .active _ _ _ validForMs =>
    ensure (validForMs.toNat ≤ maxTicketLifetimeMs)
      (.ticketLifetimeTooLong validForMs.toNat maxTicketLifetimeMs)
  | .withdrawn => .ok ()

def TicketData.signingBytes (d : TicketData) : Bytes := TicketData.codec.encode d

theorem TicketData.codec_valid (d : TicketData) : TicketData.codec.valid d = true := by
  have haction : TicketAction.codec.valid d.action = true := by cases d.action <;> rfl
  simpa [TicketData.codec, Codec.u16, Codec.u64, Codec.word] using haction

theorem TicketData.signingBytes_injective : Function.Injective TicketData.signingBytes :=
  fun d d' h => TicketData.codec.encode_inj d.codec_valid d'.codec_valid h

/-- The ticket identity; the signature is not part of it. -/
def TicketHash.of (κ : Primitives) (d : TicketData) : TicketHash := ⟨κ.blake3 d.signingBytes⟩

def Ticket.validate (t : Ticket) : Except NegotiationError Unit := do
  t.data.validate
  checkFactSize (Ticket.codec.encode t).length

inductive TicketVerificationError where
  | structural (error : NegotiationError)
  | identity (error : CryptoError)
  | identityMismatch
  | keyBinding (error : CryptoError)
  | keyBindingMismatch
  deriving DecidableEq

instance : ToString TicketVerificationError where
  toString
    | .structural error => s!"invalid ticket structure: {error}"
    | .identity error => s!"identity signature verification failed: {error}"
    | .identityMismatch => "identity signature mismatch"
    | .keyBinding error => s!"key binding verification failed: {error}"
    | .keyBindingMismatch => "key binding mismatch"

def Ticket.verifyIdentity (κ : Primitives) (t : Ticket) : Except CryptoError Bool :=
  verifyIdentitySignature κ t.data.signer t.data.signingBytes t.signature

def Ticket.verifyForOffer (κ : Primitives) (t : Ticket) (offerHash : OfferHash) :
    Except TicketVerificationError Unit := do
  t.validate.mapError .structural
  let identity ← (t.verifyIdentity κ).mapError .identity
  ensure (identity = true) .identityMismatch
  match t.data.action with
  | .active executionBls keyBinding _ _ =>
    let bound ← (verifyKeyBinding κ offerHash t.data.signer executionBls keyBinding).mapError
      .keyBinding
    ensure (bound = true) .keyBindingMismatch
  | .withdrawn => .ok ()

end Arena0
