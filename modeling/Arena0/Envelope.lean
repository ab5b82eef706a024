import Arena0.BorshBounds
import Arena0.Store

/-!
# Durable envelopes

Every protocol record of the store is a versioned payload under a checksum.
Opening an envelope that was sealed under the same kind returns its payload,
unless the payload is over the bound of the reader.
-/

namespace Arena0

open Borsh Fallible

inductive EnvelopeKind where
  | activation | preparedActivation | executionState | eventRecord | agreedStep | effects
  | receipt | timer | executionSalt | program | executionAdmission | stepState
  deriving DecidableEq

def EnvelopeKind.tag : EnvelopeKind → UInt16
  | .activation => 1
  | .preparedActivation => 2
  | .executionState => 3
  | .eventRecord => 4
  | .agreedStep => 5
  | .effects => 6
  | .receipt => 8
  | .timer => 10
  | .executionSalt => 11
  | .program => 12
  | .executionAdmission => 13
  | .stepState => 14

structure DurableEnvelope where
  magic : FixedBytes 8
  kind : UInt16
  version : UInt16
  payload : Bytes
  checksum : FixedBytes 32
  deriving DecidableEq

namespace DurableEnvelope

def envelopeMagic : FixedBytes 8 := .padded 8 (Codec.utf8 "AR0STOR1")
def envelopeVersion : UInt16 := 2
def envelopeDomain : Bytes := Codec.utf8 "arena0/store-envelope/v2"
def maxEnvelopeOverhead : ℕ := 8 + 2 + 2 + 4 + 32

def codec : Codec DurableEnvelope :=
  ((Codec.fixed 8).pair <| Codec.u16.pair <| Codec.u16.pair <|
    (Codec.byteVec _ u32Max_lt).pair (Codec.fixed 32)).equiv
  { toFun := fun (a, b, c, d, e) => ⟨a, b, c, d, e⟩
    invFun := fun x => (x.magic, x.kind, x.version, x.payload, x.checksum) }

def checksumOf (κ : Primitives) (kind : EnvelopeKind) (payload : Bytes) : FixedBytes 32 :=
  κ.blake3 (envelopeDomain ++ Codec.u16.encode kind.tag ++ Codec.u16.encode envelopeVersion ++
    payload)

def «seal» (κ : Primitives) (kind : EnvelopeKind) (payload : Bytes) : Except StoreError Bytes :=
  encodeBorsh codec ⟨envelopeMagic, kind.tag, envelopeVersion, payload, checksumOf κ kind payload⟩
    "durable envelope"

/-- Refuse an oversized envelope, then check its header, payload bound and checksum. -/
def «open» (κ : Primitives) (kind : EnvelopeKind) (encoded : Bytes) (maxPayload : ℕ) :
    Except StoreError Bytes := do
  ensure (encoded.length ≤ maxPayload + maxEnvelopeOverhead)
    (.corruption "durable envelope exceeds bound")
  let envelope ← okOr (codec.fromSlice encoded) (.corruption "durable envelope decode failed")
  ensure (envelope.magic = envelopeMagic ∧ envelope.kind = kind.tag ∧
    envelope.version = envelopeVersion) (.corruption "durable envelope header is invalid")
  ensure (envelope.payload.length ≤ maxPayload)
    (.corruption "durable envelope payload exceeds bound")
  ensure (envelope.checksum = checksumOf κ kind envelope.payload)
    (.corruption "durable envelope checksum mismatch")
  return envelope.payload

/-- What was sealed within the bound of the reader opens again. -/
theorem open_seal {κ : Primitives} {kind : EnvelopeKind} {payload encoded : Bytes} {max : ℕ}
    (h : «seal» κ kind payload = .ok encoded) (hmax : payload.length ≤ max) :
    «open» κ kind encoded max = .ok payload := by
  simp only [«seal», encodeBorsh, okOr_eq_ok, Codec.toVec_eq_some_iff] at h
  obtain ⟨hfits, rfl⟩ := h
  have hread := codec.fromSlice_encode (a := ⟨envelopeMagic, kind.tag, envelopeVersion, payload,
    checksumOf κ kind payload⟩) hfits
  have hlength : (codec.encode ⟨envelopeMagic, kind.tag, envelopeVersion, payload,
      checksumOf κ kind payload⟩).length = payload.length + maxEnvelopeOverhead := by
    simp only [codec, Codec.equiv_encode, Equiv.coe_fn_symm_mk, Codec.pair_encode,
      List.length_append, Codec.length_fixed_encode, Codec.length_u16_encode,
      Codec.byteVec_encode, Codec.length_leBytes, maxEnvelopeOverhead]
    omega
  simp only [«open», bind_eq_ok, ensure_eq_ok, okOr_eq_ok, pure_eq_ok]
  exact ⟨(), by omega, _, hread, (), ⟨rfl, rfl, rfl⟩, (), hmax, (), rfl, rfl⟩

theorem seal_eq_ok {κ : Primitives} {kind : EnvelopeKind} {payload : Bytes}
    (h : payload.length ≤ 256 ^ 4 - 1) : ∃ encoded, «seal» κ kind payload = .ok encoded := by
  simp only [«seal», encodeBorsh, okOr_eq_ok, Codec.toVec_eq_some_iff, exists_eq_right']
  simp only [codec, Codec.equiv_fits, Equiv.coe_fn_symm_mk, Codec.pair_fits, Codec.byteVec_fits,
    decide_eq_true h]
  rfl

end DurableEnvelope

end Arena0
