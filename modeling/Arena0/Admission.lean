import Arena0.DurableState
import Arena0.Envelope
import Arena0.ExecError

/-!
# Execution admissions

The durable local authority for starting or joining one execution, and the
records of its activation.
-/

namespace Arena0

open Borsh Fallible

variable {κ : Primitives}

structure NegotiationTarget where
  creator : PeerId
  negotiationId : NegotiationId
  deriving DecidableEq

/-- The caller authority persisted before negotiation: create a negotiation of exactly so many
participants, or join one.  A join without a target takes the first valid offer. -/
inductive ExecutionAdmission where
  | create (negotiationId : NegotiationId) (participantCount : UInt16)
  | join (target : Option NegotiationTarget)
  deriving DecidableEq

namespace ExecutionAdmission

def tryCreate (negotiationId : NegotiationId) (participantCount : UInt16) :
    Except EnsembleError ExecutionAdmission := do
  ensure (2 ≤ participantCount.toNat) (.tooFewParticipants participantCount.toNat)
  ensure (participantCount.toNat ≤ maxParticipants)
    (.tooManyParticipants participantCount.toNat)
  return .create negotiationId participantCount

def negotiationId : ExecutionAdmission → Option NegotiationId
  | .create negotiationId _ => some negotiationId
  | .join (some target) => some target.negotiationId
  | .join none => none

def target : ExecutionAdmission → Option NegotiationTarget
  | .join target => target
  | .create .. => none

def admissionVersion : UInt8 := 1

/-- A creator admission is read only with a participant count it could be constructed with. -/
def readable : ExecutionAdmission → Bool
  | .create negotiationId participantCount => (tryCreate negotiationId participantCount).isOk
  | .join _ => true

/-- A version byte and a tagged body; tag 0 is retired. -/
def codec : Codec ExecutionAdmission :=
  ((Codec.u8.pair (Codec.enum (.cons .retired <| .cons (Id.codec.pair Id.codec) <|
      .cons (Id.codec.pair Codec.u16) (.last Codec.unit)))).partialInv
    (fun
      | .join (some target) => (admissionVersion, .inr (.inl (target.creator, target.negotiationId)))
      | .create negotiationId count => (admissionVersion, .inr (.inr (.inl (negotiationId, count))))
      | .join none => (admissionVersion, .inr (.inr (.inr ()))))
    (fun (version, body) =>
      if version = admissionVersion then
        match body with
        | .inl retired => nomatch retired
        | .inr (.inl (creator, negotiationId)) => some (.join (some ⟨creator, negotiationId⟩))
        | .inr (.inr (.inl (negotiationId, count))) => some (.create negotiationId count)
        | .inr (.inr (.inr ())) => some (.join none)
      else none)
    (by rintro (_ | _ | _) <;> rfl)).guarded readable

theorem within {admission : ExecutionAdmission} (h : admission.readable = true) :
    codec.Within 66 admission := by
  refine Codec.Within.guarded (Codec.Within.partialInv ?_) h
  cases admission with
  | create negotiationId count =>
    have hbody := (Id.within negotiationId).pair (Codec.within_u16 count)
    exact ((Codec.within_u8 _).pair (Codec.within_enum hbody.valid hbody.length_le)).mono (by decide)
  | join target =>
    cases target with
    | none => exact ⟨rfl, by decide⟩
    | some target =>
      have hbody := (Id.within target.creator).pair (Id.within target.negotiationId)
      exact ((Codec.within_u8 _).pair (Codec.within_enum hbody.valid hbody.length_le)).mono
        (by decide)

end ExecutionAdmission

/-! ## Activation evidence -/

/-- Revalidate prepared evidence after it crossed a trust boundary. -/
def PreparedActivation.validate (p : PreparedActivation κ) : Except ActivationError Unit := do
  let activationData ← activationDataFor p.offer p.tickets
  ensure (activationData = p.activationData ∧ SessionHash.of κ p.activationData = p.sessionHash)
    .ticketSetMismatch

@[simp] theorem PreparedActivation.validate_eq_ok (p : PreparedActivation κ) :
    p.validate = .ok () := by
  simp only [validate, p.activationData_eq, ok_bind, ensure_eq_ok, true_and]
  exact p.sessionHash_eq.symm

/-- Whether a committed activation retains these exact prepared facts. -/
def PreparedActivation.matches (p : PreparedActivation κ) (activation : Activation κ) : Bool :=
  p = activation.prepared

@[simp] theorem PreparedActivation.matches_iff {p : PreparedActivation κ}
    {activation : Activation κ} : p.matches activation = true ↔ activation.prepared = p := by
  simp [PreparedActivation.matches, eq_comm]

structure ActivationFacts where
  negotiationId : NegotiationId
  offerHash : OfferHash
  creator : PeerId
  targetSize : UInt16
  initialState : StateHash
  participants : List (PeerId × TicketHash)
  params : Bytes
  deriving DecidableEq

namespace ActivationFacts

def of (prepared : PreparedActivation κ) : ActivationFacts :=
  let offer := prepared.offer.data
  { negotiationId := offer.negotiationId
    offerHash := OfferHash.of offer
    creator := offer.creator
    targetSize := offer.targetSize
    initialState := offer.initialState
    participants := prepared.tickets.map fun ticket =>
      (ticket.data.signer, TicketHash.of κ ticket.data)
    params := offer.params.bytes }

def codec : Codec ActivationFacts :=
  (Id.codec.pair <| Id.codec.pair <| Id.codec.pair <| Codec.u16.pair <| Id.codec.pair <|
    (Codec.vec _ (Id.codec.pair Id.codec) u32Max_lt).pair <|
    Codec.byteVec _ u32Max_lt).equiv
  { toFun := fun (a, b, c, d, e, f, g) => ⟨a, b, c, d, e, f, g⟩
    invFun := fun x => (x.negotiationId, x.offerHash, x.creator, x.targetSize, x.initialState,
      x.participants, x.params) }

theorem codec_valid_of (prepared : PreparedActivation κ) : codec.valid (of prepared) = true := by
  have hparticipants : (of prepared).participants.length ≤ maxParticipants := by
    simpa [of] using prepared.ticketSet.bounds.2
  have hparams := prepared.offer.data.params.bound
  have hvec := Codec.within_vec u32Max_lt hparticipants (by decide)
    fun p _ => (Id.within p.1).pair (Id.within p.2)
  have hbytes := Codec.within_byteVec u32Max_lt hparams (by decide)
  simp only [codec, Codec.equiv_valid, Equiv.coe_fn_symm_mk, Codec.pair_valid, hvec.valid]
  exact hbytes.valid

end ActivationFacts

end Arena0
