import Arena0.Binding

/-!
# Step commitments and the agreed trace

The portable entries of the agreed trace, the commitments participants sign,
and the aggregate agreements recorded over them.
-/

namespace Arena0

open Borsh Fallible

/-! ## Signer bitmaps -/

/-- A bitmap over participant indices in participant order. -/
structure SignerSet where
  bytes : Bytes
  deriving DecidableEq

namespace SignerSet

def empty : SignerSet := ⟨[]⟩

/-- Bytes needed for `n` participants. -/
def byteLength (n : ℕ) : ℕ := (n + 7) / 8

def withCapacity (n : ℕ) : SignerSet := ⟨List.replicate (byteLength n) 0⟩

/-- Mark participant `i`, growing the bitmap when it is too short. -/
def set (s : SignerSet) (i : ℕ) : SignerSet :=
  let bytes := s.bytes ++ List.replicate (i / 8 + 1 - s.bytes.length) 0
  ⟨bytes.modify (i / 8) fun byte => byte ||| UInt8.ofNat (2 ^ (i % 8))⟩

def contains (s : SignerSet) (i : ℕ) : Bool :=
  match s.bytes[i / 8]? with
  | some byte => byte.toNat.testBit (i % 8)
  | none => false

def countOnes (b : UInt8) : ℕ := (List.range 8).countP fun i => b.toNat.testBit i

def count (s : SignerSet) : ℕ := (s.bytes.map countOnes).sum

def isFull (s : SignerSet) (n : ℕ) : Bool := (List.range n).all s.contains

def validate (s : SignerSet) (participantCount : ℕ) : Except String Unit := do
  ensure (participantCount ≤ maxParticipants)
    s!"participant count {participantCount} exceeds maximum {maxParticipants}"
  let expected := byteLength participantCount
  ensure (s.bytes.length ≤ expected)
    s!"signer bitmap has extra bytes: got {s.bytes.length}, expected {expected}"
  ensure (expected ≤ s.bytes.length)
    s!"signer bitmap has wrong byte length: got {s.bytes.length}, expected {expected}"
  let usedBits := participantCount % 8
  let last := s.bytes.getD (expected - 1) 0
  ensure (usedBits = 0 ∨ last.toNat < 2 ^ usedBits)
    s!"signer bitmap sets unused high bits in final byte: 0x{hexEncode [last]}"

def full (participantCount : ℕ) : Except String SignerSet := do
  ensure (participantCount ≤ maxParticipants)
    s!"participant count {participantCount} exceeds maximum {maxParticipants}"
  let whole := List.replicate (participantCount / 8) (255 : UInt8)
  let usedBits := participantCount % 8
  return ⟨if usedBits = 0 then whole else whole ++ [UInt8.ofNat (2 ^ usedBits - 1)]⟩

def codec : Codec SignerSet :=
  (Codec.byteVec _ u32Max_lt).equiv
  { toFun := SignerSet.mk
    invFun := SignerSet.bytes }

end SignerSet

/-! ## Aggregate agreements -/

inductive AttestationError where
  | invalidSignerSet (step : UInt64) (reason : String)
  | noSigners (step : UInt64)
  | badAggregate (step : UInt64)
  | crypto (message : String)
  deriving DecidableEq

instance : ToString AttestationError where
  toString
    | .invalidSignerSet step reason => s!"invalid signer bitmap at step {step}: {reason}"
    | .noSigners step => s!"agreement has no signers at step {step}"
    | .badAggregate step => s!"agreement aggregate did not verify at step {step}"
    | .crypto message => s!"crypto error: {message}"

structure AggregateAttestation where
  aggregate : BlsSignature
  signers : SignerSet
  deriving DecidableEq

namespace AggregateAttestation

def empty : AggregateAttestation := ⟨0, .empty⟩

def fromSignatures (κ : Primitives) (signers : SignerSet) (signatures : List BlsSignature) :
    Except CryptoError AggregateAttestation :=
  if signatures = [] then .ok empty
  else do
    let aggregate ← κ.blsAggregate signatures
    return ⟨aggregate, signers⟩

def selectedParticipants (a : AggregateAttestation) (participants : List BlsPublicKey) :
    List BlsPublicKey :=
  (participants.zipIdx.filter fun p => a.signers.contains p.2).map (·.1)

def verifySignatures (κ : Primitives) (a : AggregateAttestation) (step : UInt64) (message : Bytes)
    (participants : List BlsPublicKey) : Except AttestationError Unit := do
  (a.signers.validate participants.length).mapError (.invalidSignerSet step)
  let signers := a.selectedParticipants participants
  ensure (signers ≠ []) (.noSigners step)
  let ok ← (fastAggregateVerify κ a.aggregate message signers).mapError fun error =>
    .crypto (toString error)
  ensure (ok = true) (.badAggregate step)

def codec : Codec AggregateAttestation :=
  ((Codec.fixed 48).pair SignerSet.codec).equiv
  { toFun := fun (a, b) => ⟨a, b⟩
    invFun := fun a => (a.aggregate, a.signers) }

end AggregateAttestation

/-! ## Trace entries -/

def traceFormatVersion : UInt32 := 3

inductive StepEvent where
  | sessionStarted (ensemble : Ensemble)
  | message (source : PeerId) (data : Bytes)
  deriving DecidableEq

inductive StepTerminal where
  | «end» (outcome : Bytes)
  | abort (reason : String)
  | fail (reason : String)
  deriving DecidableEq

namespace StepTerminal

def codec : Codec StepTerminal :=
  (Codec.enum (.cons outcomeBytesCodec (.cons reasonCodec (.last reasonCodec)))).equiv
  { toFun := fun
      | .inl outcome => .end outcome
      | .inr (.inl reason) => .abort reason
      | .inr (.inr reason) => .fail reason
    invFun := fun
      | .end outcome => .inl outcome
      | .abort reason => .inr (.inl reason)
      | .fail reason => .inr (.inr reason)
    left_inv := by rintro (_ | _ | _) <;> rfl
    right_inv := by rintro (_ | _ | _) <;> rfl }

end StepTerminal

def StepEvent.codec : Codec StepEvent :=
  (Codec.enum (.cons Ensemble.codec
    (.last (Id.codec.pair payloadCodec)))).equiv
  { toFun := fun
      | .inl ensemble => .sessionStarted ensemble
      | .inr (source, data) => .message source data
    invFun := fun
      | .sessionStarted ensemble => .inl ensemble
      | .message source data => .inr (source, data)
    left_inv := by rintro (_ | _) <;> rfl
    right_inv := by rintro (_ | _) <;> rfl }

structure TraceEntry where
  traceVersion : UInt32
  step : UInt64
  event : StepEvent
  preState : StateHash
  postState : StateHash
  terminal : Option StepTerminal
  agreement : AggregateAttestation
  deriving DecidableEq

namespace TraceEntry

/-- The writer carries the version verbatim; the reader enforces it. -/
def codec : Codec TraceEntry :=
  ((Codec.u32.pair <| Codec.u64.pair <| StepEvent.codec.pair <| Id.codec.pair <|
    Id.codec.pair <| StepTerminal.codec.option.pair AggregateAttestation.codec).equiv
  { toFun := fun (a, b, c, d, e, f, g) => (⟨a, b, c, d, e, f, g⟩ : TraceEntry)
    invFun := fun t => (t.traceVersion, t.step, t.event, t.preState, t.postState, t.terminal,
      t.agreement) }).guarded fun t => t.traceVersion = traceFormatVersion

def isTerminal (e : TraceEntry) : Bool := e.terminal.isSome

def normalized (e : TraceEntry) : TraceEntry := { e with agreement := .empty }

/-- Hash of the canonical entry content, without the agreement join. -/
def entryHash (κ : Primitives) (e : TraceEntry) : FixedBytes 32 :=
  κ.blake3 (codec.encode e.normalized)

end TraceEntry

/-! ## Step commitments -/

def stepCommitDomain : FixedBytes 24 := .padded 24 (Codec.utf8 "arena0/step-commit/v4")

def chainStart : FixedBytes 32 := 0

/-- The message every participant signs for one step. -/
@[ext] structure StepCommitment where
  domain : FixedBytes 24
  sessionId : SessionHash
  step : UInt64
  entryHash : FixedBytes 32
  preState : StateHash
  postState : StateHash
  link : FixedBytes 32
  deriving DecidableEq

namespace StepCommitment

def hasStepDomain (c : StepCommitment) : Bool := c.domain = stepCommitDomain

def isBoundTo (c : StepCommitment) (sessionId : SessionHash) : Bool :=
  c.hasStepDomain && c.sessionId = sessionId

def forEntry (κ : Primitives) (sessionId : SessionHash) (entry : TraceEntry)
    (link : FixedBytes 32) : StepCommitment where
  domain := stepCommitDomain
  sessionId := sessionId
  step := entry.step
  entryHash := entry.entryHash κ
  preState := entry.preState
  postState := entry.postState
  link := link

def codec : Codec StepCommitment :=
  ((Codec.fixed 24).pair <| Id.codec.pair <| Codec.u64.pair <| (Codec.fixed 32).pair <|
    Id.codec.pair <| Id.codec.pair (Codec.fixed 32)).equiv
  { toFun := fun (a, b, c, d, e, f, g) => ⟨a, b, c, d, e, f, g⟩
    invFun := fun c => (c.domain, c.sessionId, c.step, c.entryHash, c.preState, c.postState,
      c.link) }

def signingBytes (c : StepCommitment) : Bytes := codec.encode c

def linkHash (κ : Primitives) (c : StepCommitment) : FixedBytes 32 := κ.blake3 c.signingBytes

theorem codec_valid (c : StepCommitment) : codec.valid c = true := rfl

theorem signingBytes_injective : Function.Injective signingBytes := by
  intro c d h
  exact codec.encode_inj c.codec_valid d.codec_valid h

@[simp] theorem forEntry_normalized (κ : Primitives) (s : SessionHash) (e : TraceEntry)
    (l : FixedBytes 32) : forEntry κ s e.normalized l = forEntry κ s e l := rfl

end StepCommitment

end Arena0
