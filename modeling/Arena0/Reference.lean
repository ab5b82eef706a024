import Arena0.Dispatch
import Arena0.Reserve

/-!
# A reference session

Primitives that can be evaluated, and the session of two participants over them
in which the results of this development are instantiated: the tickets, the
activation and the first aggregate of each participant.
-/

namespace Arena0

open Borsh Fallible

/-! ## Primitives -/

def referenceDigest (bytes : Bytes) : ℕ :=
  bytes.foldl (fun h b => h * 257 + b.toNat + 1) 7 % (2 ^ 61 - 1)

def referenceBytes (w n : ℕ) : FixedBytes w := ⟨Codec.leBytes w n, Codec.length_leBytes w n⟩

def referenceSign (w : ℕ) (key msg : Bytes) : FixedBytes w :=
  referenceBytes w (referenceDigest (key ++ msg))

def referenceAggregate (signatures : List BlsSignature) : BlsSignature :=
  referenceBytes 48 (signatures.map fun s => Codec.leNat s.bytes).sum

/-- Digests as hashes and as signatures: a key signs what it is the prefix of.  A BLS signature is
unique, an Ed25519 key has a second signature of every message. -/
def referencePrimitives : Primitives where
  blake3 bytes := referenceBytes 32 (referenceDigest
    (bytes.take 200 ++ ((bytes.drop 800).take 200).filter (· ≠ 0)))
  blsVerify key msg signature := .ok (signature = referenceSign 48 key.bytes msg)
  blsVerifyBinding key msg signature := .ok (signature = referenceSign 48 key.bytes (0 :: msg))
  blsAggregate signatures := .ok (referenceAggregate signatures)
  blsFastAggregateVerify aggregate msg keys :=
    .ok (aggregate = referenceAggregate (keys.map fun key => referenceSign 48 key.bytes msg))
  ed25519Verify key msg signature := .ok (signature = referenceSign 64 key.bytes msg ∨
    signature = referenceSign 64 (1 :: key.bytes) msg)
  checkJson bytes := if bytes = Codec.utf8 "\x7b\x7d" then .ok () else .error "expected value"

namespace Sample

def peer (n : UInt8) : PeerId := ⟨.replicate 32 n⟩
def key (n : UInt8) : BlsPublicKey := .replicate 96 n

def bothPeers : Ensemble := ⟨[peer 1, peer 2], by decide +kernel, by decide⟩

def shared : SharedStateBytes := ⟨[0], by decide⟩
def localState : LocalStateBytes := ⟨[], by decide⟩

def offerData : OfferData referencePrimitives where
  domain := offerDomain
  version := offerVersion
  negotiationId := ⟨.replicate 32 9⟩
  offerSeq := 0
  creator := peer 1
  programHash := ⟨.replicate 32 8⟩
  executionProfile := ⟨.replicate 32 7⟩
  params := ⟨Codec.utf8 "\x7b\x7d", by decide, by decide⟩
  targetSize := 2
  initialState := ⟨referenceBytes 32 2205900492539201839⟩
  deadlineUnixMs := 0

def ticket (n : UInt8) (keyBinding signature : ℕ) : Ticket where
  data :=
    { domain := ticketDomain
      version := ticketVersion
      negotiationId := ⟨.replicate 32 9⟩
      offerSeq := 0
      signer := peer n
      revision := 0
      action := .active (key n) (referenceBytes 48 keyBinding) 0 1000 }
  signature := referenceBytes 64 signature

def tickets : List Ticket :=
  [ticket 1 840244490602814717 1780055481177956302, ticket 2 926440382525338713 1194982635339798432]

def offer : Offer referencePrimitives where
  data := offerData
  tickets := [⟨referenceBytes 32 1636314296729676714⟩, ⟨referenceBytes 32 333830190681275068⟩]

def activationData : ActivationData :=
  ⟨activationDomain, activationVersion, ⟨referenceBytes 32 844726229563486338⟩, offer.tickets⟩

def prepared : PreparedActivation referencePrimitives where
  offer := offer
  tickets := tickets
  activationData := activationData
  sessionHash := ⟨referenceBytes 32 669119688539819714⟩
  activationData_eq := by decide +kernel
  sessionHash_eq := by decide +kernel

def activation : Activation referencePrimitives where
  prepared := prepared
  aggregate := referenceBytes 48 2476544184878747501
  valid := by decide +kernel

def binding : ExecutionBinding referencePrimitives := ⟨activation⟩

def executionId : ExecId := ⟨.replicate 32 5⟩

theorem reserve_eq : ReceiptArtifact.reserve binding = 66539 := by decide +kernel

theorem ofShared_eq : StateHash.ofShared referencePrimitives shared = offerData.initialState := by
  decide +kernel

def state (n : UInt8) : ExecutionState referencePrimitives where
  executionId := executionId
  binding := binding
  producer := peer n
  status := .activating
  version := 0
  eventPosition := 0
  agreedStep := 0
  traceBytes := 0
  receiptOverhead := 66539
  agreedState := offerData.initialState
  agreedLink := chainStart
  lastCertificate := none
  endPhase := .open
  direct := .empty
  outgoing := []
  sharedState := shared
  localState := localState
  proposal := none
  callout := none

theorem new_eq_ok {n : UInt8} (hn : binding.isParticipant (peer n) = true) :
    ExecutionState.new executionId activation (peer n) shared localState = .ok (state n) := by
  have hoverhead : ReceiptArtifact.reservedOverhead binding = .ok 66539 :=
    ReceiptArtifact.reservedOverhead_eq_ok.2 ⟨by decide +kernel, by decide +kernel, reserve_eq.symm⟩
  have hle : 66539 ≤ maxReceiptBytes := by decide
  simp only [ExecutionState.new, ExecutionBinding.new, Activation.validate_eq_ok, bind_eq_ok,
    mapError_eq_ok, pure_eq_ok, ensure_eq_ok, ofShared_eq]
  exact ⟨binding, ⟨(), trivial, rfl⟩, _, hoverhead, (), hle, (), hn, (), rfl, rfl⟩

end Sample

end Arena0
