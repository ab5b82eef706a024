import Arena0.BorshContainers
import Arena0.Fallible

/-!
# Identifiers, keys and third-party primitives

The 32-byte identifiers of the protocol, the key and signature types, and the
primitives the program takes from other libraries: BLAKE3, BLS12-381, Ed25519
and the JSON reader.  Nothing is assumed about the primitives here.
-/

namespace Arena0

open Borsh

inductive IdKind where
  | peer | session | state | program | executionProfile | exec | offer | ticket
  | negotiation | receipt | timer | blob
  deriving DecidableEq

@[ext] structure Id (k : IdKind) where
  bytes : FixedBytes 32

namespace Id

variable {k : IdKind}

theorem bytes_injective : Function.Injective (bytes : Id k → FixedBytes 32) := by
  intro a b h
  exact Id.ext h

instance : LinearOrder (Id k) := LinearOrder.lift' bytes bytes_injective

instance : Zero (Id k) := ⟨⟨0⟩⟩

def equivBytes : FixedBytes 32 ≃ Id k where
  toFun := mk
  invFun := bytes
  left_inv _ := rfl
  right_inv _ := rfl

def codec : Codec (Id k) := (Codec.fixed 32).equiv equivBytes

@[simp] theorem codec_encode (a : Id k) : codec.encode a = a.bytes.bytes := rfl
@[simp] theorem length_codec_encode (a : Id k) : (codec.encode a).length = 32 := a.bytes.length_eq

@[simp] theorem codec_fits (a : Id k) : codec.fits a = true := rfl
@[simp] theorem codec_valid (a : Id k) : codec.valid a = true := rfl

end Id

abbrev PeerId := Id .peer
abbrev SessionHash := Id .session
abbrev StateHash := Id .state
abbrev ProgramHash := Id .program
abbrev ExecutionProfileHash := Id .executionProfile
abbrev ExecId := Id .exec
abbrev OfferHash := Id .offer
abbrev TicketHash := Id .ticket
abbrev NegotiationId := Id .negotiation
abbrev ReceiptId := Id .receipt
abbrev TimerId := Id .timer
abbrev BlobHash := Id .blob

abbrev BlsPublicKey := FixedBytes 96
abbrev BlsSignature := FixedBytes 48
abbrev Ed25519Signature := FixedBytes 64

/-- A malformed key or signature, with the message of the library that refused it. -/
inductive CryptoError where
  | verificationFailed (message : String)
  deriving DecidableEq

/-- The operations the program takes from other libraries. -/
structure Primitives where
  blake3 : Bytes → FixedBytes 32
  /-- BLS verification under the signing ciphersuite. -/
  blsVerify : BlsPublicKey → Bytes → BlsSignature → Except CryptoError Bool
  /-- BLS verification under the key-binding ciphersuite. -/
  blsVerifyBinding : BlsPublicKey → Bytes → BlsSignature → Except CryptoError Bool
  blsAggregate : List BlsSignature → Except CryptoError BlsSignature
  /-- Same-message verification against a non-empty list of keys. -/
  blsFastAggregateVerify : BlsSignature → Bytes → List BlsPublicKey → Except CryptoError Bool
  ed25519Verify : FixedBytes 32 → Bytes → Ed25519Signature → Except CryptoError Bool
  /-- Read the bytes as one complete JSON value, with the reader's message on failure. -/
  checkJson : Bytes → Except String Unit

variable (κ : Primitives)

def fastAggregateVerify (aggregate : BlsSignature) (msg : Bytes) (pubkeys : List BlsPublicKey) :
    Except CryptoError Bool :=
  if pubkeys = [] then .ok false else κ.blsFastAggregateVerify aggregate msg pubkeys

def blsBindingDomain : Bytes := Codec.utf8 "arena0/execution-key-binding/v2"

def keyBindingMessage (offerHash : OfferHash) (signer : PeerId) (executionBls : BlsPublicKey) :
    Bytes :=
  blsBindingDomain ++ offerHash.bytes.bytes ++ signer.bytes.bytes ++ executionBls.bytes

def verifyKeyBinding (offerHash : OfferHash) (signer : PeerId) (executionBls : BlsPublicKey)
    (binding : BlsSignature) : Except CryptoError Bool :=
  κ.blsVerifyBinding executionBls (keyBindingMessage offerHash signer executionBls) binding

/-- Verify an Ed25519 signature; a `PeerId` is the public key of its host. -/
def verifyIdentitySignature (signer : PeerId) (message : Bytes) (signature : Ed25519Signature) :
    Except CryptoError Bool :=
  κ.ed25519Verify signer.bytes message signature

/-- `u64` addition that fails on overflow. -/
def checkedAdd (a b : UInt64) : Option UInt64 :=
  if a.toNat + b.toNat < 2 ^ 64 then some (a + b) else none

theorem checkedAdd_eq_some {a b c : UInt64} (h : checkedAdd a b = some c) :
    c.toNat = a.toNat + b.toNat := by
  unfold checkedAdd at h
  split at h
  · cases h
    rw [UInt64.toNat_add]
    exact Nat.mod_eq_of_lt ‹_›
  · cases h

theorem lt_of_checkedAdd_one {a b : UInt64} (h : checkedAdd a 1 = some b) : a < b := by
  rw [UInt64.lt_iff_toNat_lt, checkedAdd_eq_some h]
  exact Nat.lt_succ_self _

theorem checkedAdd_one {a : UInt64} (h : a.toNat + 1 < 2 ^ 64) : checkedAdd a 1 = some (a + 1) := by
  rw [checkedAdd, if_pos]
  simpa using h

/-! ## Bounds -/

def maxEffectPayloadBytes : ℕ := 64 * 1024
def maxTimerPayloadBytes : ℕ := 64 * 1024
def maxTerminalReasonBytes : ℕ := 4 * 1024
def maxTerminalOutcomeBytes : ℕ := 64 * 1024
def maxParticipants : ℕ := 64
def maxDirectControlBytes : ℕ := 2 * 1024
def maxDirectRangeBytes : ℕ := 32 * 1024
def maxEffects : ℕ := 128
def maxOutgoingMessages : ℕ := 16
def maxDirectQueue : ℕ := 8
def maxActiveTimers : ℕ := 64
def maxProofSignatures : ℕ := maxParticipants
def maxExecutionStateBytes : ℕ := 32 * 1024 * 1024
def maxReceiptBytes : ℕ := 8 * 1024 * 1024
def maxTraceEntryBytes : ℕ := 256 * 1024
def maxReceiptTraceEntries : ℕ := 65536
def maxCallPayloadBytes : ℕ := 4 * 1024 * 1024
def maxCalloutContextBytes : ℕ := 64 * 1024
def maxEffectBytes : ℕ := 4 * 1024 * 1024
def maxParamsLen : ℕ := 1024
def maxNegotiationFactBytes : ℕ := 4 * 1024
def maxTicketLifetimeMs : ℕ := 60000

/-! ## Bounded fields -/

abbrev reasonCodec : Codec String := Codec.string maxTerminalReasonBytes
abbrev outcomeBytesCodec : Codec Bytes := Codec.byteVec maxTerminalOutcomeBytes
abbrev payloadCodec : Codec Bytes := Codec.byteVec maxEffectPayloadBytes
abbrev controlCodec : Codec Bytes := Codec.byteVec maxDirectControlBytes
abbrev paramsCodec : Codec Bytes := Codec.byteVec maxParamsLen
abbrev peersCodec : Codec (List PeerId) := Codec.vec maxParticipants Id.codec

abbrev traceCodec {α : Type} (entry : Codec α) : Codec (List α) :=
  Codec.vec maxReceiptTraceEntries entry

end Arena0
