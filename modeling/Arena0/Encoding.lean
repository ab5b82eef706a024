import Arena0.Dispatch

/-!
# Durable encodings

The bytes of an execution aggregate and of the records written beside it, with
the bound an aggregate must meet before it is written.
-/

namespace Arena0

open Borsh Fallible

variable {κ : Primitives}

/-! ## Ordered collections -/

/-- Insert the pairs one after the other; a later pair replaces an earlier one. -/
def orderedMapOf {K V : Type} [LinearOrder K] (pairs : List (K × V)) : OrdMap K V :=
  pairs.foldl (fun m p => m.insert p.1 p.2) .empty

private theorem insertList_append {K V : Type} [LinearOrder K] {l : List (K × V)} {k : K} (v : V)
    (h : ∀ p ∈ l, p.1 < k) : OrdMap.insertList k v l = l ++ [(k, v)] := by
  induction l with
  | nil => rfl
  | cons q l ih =>
    have hq : q.1 < k := h q (by simp)
    have hrest := ih fun p hp => h p (by simp [hp])
    simp [OrdMap.insertList, hq.not_gt, hq.ne, hrest]

theorem orderedMapOf_entries {K V : Type} [LinearOrder K] (m : OrdMap K V) :
    orderedMapOf m.entries = m := by
  have hloop : ∀ (l : List (K × V)) (acc : OrdMap K V),
      (acc.entries ++ l).Pairwise (fun x y => x.1 < y.1) →
      (l.foldl (fun m p => m.insert p.1 p.2) acc).entries = acc.entries ++ l := by
    intro l
    induction l with
    | nil => simp
    | cons p l ih =>
      intro acc hs
      have hlt : ∀ q ∈ acc.entries, q.1 < p.1 := fun q hq =>
        (List.pairwise_append.1 hs).2.2 q hq p (by simp)
      have hins : (acc.insert p.1 p.2).entries = acc.entries ++ [p] := insertList_append p.2 hlt
      rw [List.foldl_cons, ih _ (by rw [hins]; simpa using hs), hins]
      simp
  exact OrdMap.ext (by simpa [orderedMapOf, OrdMap.empty] using hloop m.entries .empty m.sorted)

/-- A `BTreeMap`: its length and its pairs in key order. -/
def mapCodec {K V : Type} [LinearOrder K] (k : Codec K) (v : Codec V) : Codec (OrdMap K V) :=
  (Codec.vec _ (k.pair v) u32Max_lt).partialInv OrdMap.entries
    (fun pairs => some (orderedMapOf pairs)) (fun m => by rw [orderedMapOf_entries])

/-- A `BTreeSet` of peers: its length and its members in order. -/
def peerSetCodec : Codec (Finset PeerId) :=
  (Codec.vec _ Id.codec u32Max_lt).partialInv (fun s => s.sort (· ≤ ·))
    (fun peers => some peers.toFinset) (fun s => by simp)

/-! ## Parts of the aggregate -/

def StepCertificate.codec : Codec StepCertificate :=
  (StepCommitment.codec.pair AggregateAttestation.codec).equiv
  { toFun := fun (a, b) => ⟨a, b⟩
    invFun := fun c => (c.commitment, c.agreement) }

def ParticipantStepSignature.codec : Codec ParticipantStepSignature :=
  (Id.codec.pair <| Codec.u64.pair (Codec.fixed 48)).equiv
  { toFun := fun (a, b, c) => ⟨a, ⟨b, c⟩⟩
    invFun := fun x => (x.participant, x.signature.step, x.signature.sig) }

def OpenCallout.codec : Codec OpenCallout :=
  (Codec.u64.pair <| Codec.u32.pair (Codec.byteVec maxCalloutContextBytes)).equiv
  { toFun := fun (a, b, c) => ⟨a, b, c⟩
    invFun := fun o => (o.id, o.calloutIndex, o.context) }

def DirectEntry.codec : Codec DirectEntry :=
  (Codec.u64.pair <| controlCodec.pair
    RangeAttachment.codec.option).equiv
  { toFun := fun (a, b, c) => ⟨a, b, c⟩
    invFun := fun e => (e.seq, e.msg, e.range) }

def DirectLane.codec : Codec DirectLane :=
  (Codec.u64.pair <| (Codec.vec maxDirectQueue DirectEntry.codec).pair Codec.u64).equiv
  { toFun := fun (a, b, c) => ⟨a, b, c⟩
    invFun := fun l => (l.lastQueued, l.queue, l.lastApplied) }

def EndPhase.codec : Codec EndPhase :=
  (Codec.enum (.cons Codec.unit (.cons peerSetCodec (.last peerSetCodec)))).equiv
  { toFun := fun
      | .inl _ => .open
      | .inr (.inl unconfirmed) => .ending unconfirmed
      | .inr (.inr unconfirmed) => .ended unconfirmed
    invFun := fun
      | .open => .inl ()
      | .ending unconfirmed => .inr (.inl unconfirmed)
      | .ended unconfirmed => .inr (.inr unconfirmed)
    left_inv := by rintro (_ | _ | _) <;> rfl
    right_inv := by rintro (_ | _ | _) <;> rfl }

def TerminalOutcome.codec : Codec (TerminalOutcome κ) :=
  (outcomeBytesCodec.pair outcomeBytesCodec).partialInv
    (fun o => (o.borsh, o.json)) (fun (borsh, json) => (TerminalOutcome.new κ borsh json).toOption)
    (fun o => by simp [new_parts, Except.toOption])

def ExecutionStatus.codec : Codec (ExecutionStatus κ) :=
  (Codec.enum (.cons Codec.unit (.cons Codec.unit (.cons (TerminalOutcome.codec (κ := κ))
    (.cons ((TerminalOutcome.codec (κ := κ)).pair Id.codec) (.cons StopCause.codec
    (.last (StopCause.codec.pair Id.codec)))))))).equiv
  { toFun := fun
      | .inl _ => .activating
      | .inr (.inl _) => .active
      | .inr (.inr (.inl outcome)) => .certified outcome
      | .inr (.inr (.inr (.inl (outcome, receiptId)))) => .completed outcome receiptId
      | .inr (.inr (.inr (.inr (.inl cause)))) => .stopped cause
      | .inr (.inr (.inr (.inr (.inr (cause, receiptId))))) => .stoppedPublished cause receiptId
    invFun := fun
      | .activating => .inl ()
      | .active => .inr (.inl ())
      | .certified outcome => .inr (.inr (.inl outcome))
      | .completed outcome receiptId => .inr (.inr (.inr (.inl (outcome, receiptId))))
      | .stopped cause => .inr (.inr (.inr (.inr (.inl cause))))
      | .stoppedPublished cause receiptId =>
        .inr (.inr (.inr (.inr (.inr (cause, receiptId)))))
    left_inv := by rintro (_ | _ | _ | _ | _ | _) <;> rfl
    right_inv := by rintro (_ | _ | _ | _ | _ | _) <;> rfl }

def BoundedBytes.codec (max : ℕ) (hmax : max < 256 ^ 4 := by decide) : Codec (BoundedBytes max) :=
  (Codec.byteVec max hmax).partialInv BoundedBytes.bytes
    (fun bytes => if h : bytes.length ≤ max then some ⟨bytes, h⟩ else none)
    (fun b => by simp [b.bound])

def outgoingCodec : Codec (List Bytes) :=
  Codec.vec _ (Codec.byteVec _ u32Max_lt) u32Max_lt

def SharedProposal.codec : Codec (SharedProposal κ) :=
  (TraceEntry.codec.pair <| (BoundedBytes.codec maxSharedStateBytes).pair <|
    (BoundedBytes.codec maxLocalStateBytes).pair <| outgoingCodec.pair <|
    (Codec.vec _ (Codec.u32.pair Effect.codec) u32Max_lt).pair <|
    Codec.u64.pair <| (ExecutionStatus.codec (κ := κ)).pair <| OpenCallout.codec.option.pair <|
    Codec.vec _ ParticipantStepSignature.codec u32Max_lt).equiv
  { toFun := fun (a, b, c, d, e, f, g, h, i) => ⟨a, b, c, d, e, f, g, h, i⟩
    invFun := fun p => (p.entry, p.sharedState, p.localState, p.outgoing, p.effects,
      p.eventPosition, p.status, p.callout, p.signatures) }

def ExecutionBinding.codec : Codec (ExecutionBinding κ) :=
  (Activation.codec (κ := κ)).equiv
  { toFun := ExecutionBinding.mk
    invFun := ExecutionBinding.activation }

/-! ## The aggregate -/

namespace ExecutionState

/-- The persisted fields; the receipt reserve is not among them. -/
abbrev Fields (κ : Primitives) : Type :=
  ExecId × ExecutionBinding κ × PeerId × ExecutionStatus κ × UInt64 × UInt64 × UInt64 × ℕ ×
    StateHash × FixedBytes 32 × Option StepCertificate × EndPhase × OrdMap PeerId DirectLane ×
    List Bytes × SharedStateBytes × LocalStateBytes × Option (SharedProposal κ) × Option OpenCallout

def fields (s : ExecutionState κ) : Fields κ :=
  (s.executionId, s.binding, s.producer, s.status, s.version, s.eventPosition, s.agreedStep,
    s.traceBytes, s.agreedState, s.agreedLink, s.lastCertificate, s.endPhase, s.direct, s.outgoing,
    s.sharedState, s.localState, s.proposal, s.callout)

def fieldsCodec : Codec (Fields κ) :=
  Id.codec.pair <| (ExecutionBinding.codec (κ := κ)).pair <| Id.codec.pair <|
    (ExecutionStatus.codec (κ := κ)).pair <| Codec.u64.pair <| Codec.u64.pair <| Codec.u64.pair <|
    (Codec.le 8).pair <| Id.codec.pair <| (Codec.fixed 32).pair <|
    StepCertificate.codec.option.pair <| EndPhase.codec.pair <|
    (mapCodec Id.codec DirectLane.codec).pair <| outgoingCodec.pair <|
    (BoundedBytes.codec maxSharedStateBytes).pair <|
    (BoundedBytes.codec maxLocalStateBytes).pair <|
    (SharedProposal.codec (κ := κ)).option.pair OpenCallout.codec.option

def encode (s : ExecutionState κ) : Except ProtocolError Bytes := do
  let bytes ← okOr (fieldsCodec.toVec s.fields) (.serialization "length exceeds bound")
  ensureEncoded "execution state" bytes.length maxExecutionStateBytes
  return bytes

end ExecutionState

/-! ## Frames -/

def maxExecSignerBytes : ℕ := (maxParticipants + 7) / 8

namespace ExecFrame

def fits : ExecFrame → Bool
  | .message commitment data => commitment.hasStepDomain && data.length ≤ maxEffectPayloadBytes
  | .stepSignature commitment _ => commitment.hasStepDomain
  | .abort occurrence => AbortOccurrence.codec.fits occurrence
  | .stepCertificate certificate => certificate.commitment.hasStepDomain &&
      certificate.agreement.signers.bytes.length ≤ maxExecSignerBytes
  | .direct _ msg attachment => msg.length ≤ maxDirectControlBytes &&
      attachment.all (·.length ≤ maxDirectRangeBytes)

def encode : ExecFrame → Bytes
  | .message commitment data =>
    0 :: (StepCommitment.codec.encode commitment ++ (Codec.leBytes 4 data.length ++ data))
  | .stepSignature commitment signature =>
    1 :: (StepCommitment.codec.encode commitment ++ signature.bytes)
  | .abort occurrence => 2 :: AbortOccurrence.codec.encode occurrence
  | .stepCertificate certificate =>
    3 :: (StepCommitment.codec.encode certificate.commitment ++
      (SignerSet.codec.encode certificate.agreement.signers ++
        certificate.agreement.aggregate.bytes))
  | .direct seq msg attachment =>
    4 :: (Codec.u64.encode seq ++ (Codec.leBytes 4 msg.length ++ msg) ++
      match attachment with
      | none => [0]
      | some bytes => 1 :: (Codec.leBytes 4 bytes.length ++ bytes))

def toVec (frame : ExecFrame) : Option Bytes := if frame.fits then some frame.encode else none

end ExecFrame

/-! ## Records beside the aggregate -/

def Event.codec : Codec Event :=
  (Codec.enum (.cons Ensemble.codec
    (.cons (Id.codec.pair (Codec.byteVec _ u32Max_lt))
    (.cons (Codec.u32.pair payloadCodec)
    (.cons TimerPayload.codec
    (.last (Id.codec.pair <| controlCodec.pair
      Codec.u32.option))))))).equiv
  { toFun := fun
      | .inl ensemble => .sessionStarted ensemble
      | .inr (.inl (source, msg)) => .messageReceived source msg
      | .inr (.inr (.inl (calloutIndex, data))) => .inputReceived calloutIndex data
      | .inr (.inr (.inr (.inl timer))) => .timerFired timer
      | .inr (.inr (.inr (.inr (source, msg, attachment)))) =>
        .directReceived source msg attachment
    invFun := fun
      | .sessionStarted ensemble => .inl ensemble
      | .messageReceived source msg => .inr (.inl (source, msg))
      | .inputReceived calloutIndex data => .inr (.inr (.inl (calloutIndex, data)))
      | .timerFired timer => .inr (.inr (.inr (.inl timer)))
      | .directReceived source msg attachment =>
        .inr (.inr (.inr (.inr (source, msg, attachment))))
    left_inv := by rintro (_ | _ | _ | _ | _) <;> rfl
    right_inv := by rintro (_ | _ | _ | _ | _) <;> rfl }

def effectsCodec : Codec (List Effect) := Codec.vec _ Effect.codec u32Max_lt

end Arena0
