import Arena0.ReceiptBytes

/-!
# The wire form of execution frames

The hand-written writer and reader of a frame: a kind byte, a commitment whose
domain both sides check, and vectors whose length both sides bound.  They write
and read the layout the codec library builds for the same fields, so a frame
within its bounds reads back as itself, accepted bytes are the bytes of the frame
they hold, and an oversized field is refused on both sides.
-/

namespace Arena0

open Borsh Fallible

/-- Why a frame is not written or not read.  `field` stands for the errors of the codecs of fixed
fields and of abort occurrences. -/
inductive FrameError where
  | valueTooLarge (name : String) (size max : ℕ)
  | unknownDomain
  | unknownTag (tag : UInt8)
  | attachmentTag (tag : UInt8)
  | field
  deriving DecidableEq

instance : ToString FrameError where
  toString
    | .valueTooLarge name size max => s!"wire field {name} is too large: {size} bytes (max {max})"
    | .unknownDomain => "step commitment has an unknown domain"
    | .unknownTag tag => s!"unknown execution frame tag {tag}"
    | .attachmentTag tag => s!"invalid direct attachment option tag {tag}"
    | .field => "invalid frame field"

def maxExecFrameBytes : ℕ := 1 + 192 + 4 + maxEffectPayloadBytes

/-! ## The writer and the reader -/

def checkBoundedLen (len max : ℕ) (name : String) : Except FrameError Unit := do
  ensure (len ≤ max) (.valueTooLarge name len max)
  ensure (len < 256 ^ 4) (.valueTooLarge name len (256 ^ 4 - 1))

def serializeBoundedBytes (bytes : Bytes) (max : ℕ) (name : String) :
    Except FrameError Bytes := do
  checkBoundedLen bytes.length max name
  return Codec.leBytes 4 bytes.length ++ bytes

def readBoundedBytes (bytes : Bytes) (max : ℕ) (name : String) :
    Except FrameError (Bytes × Bytes) := do
  let (length, rest) ← okOr ((Codec.le 4).decode bytes) .field
  ensure (length ≤ max) (.valueTooLarge name length max)
  okOr (Codec.takeBytes length rest) .field

def writeCommitment (commitment : StepCommitment) : Except FrameError Bytes := do
  ensure (commitment.hasStepDomain = true) .unknownDomain
  return StepCommitment.codec.encode commitment

def readCommitment (bytes : Bytes) : Except FrameError (StepCommitment × Bytes) := do
  let (commitment, rest) ← okOr (StepCommitment.codec.decode bytes) .field
  ensure (commitment.hasStepDomain = true) .unknownDomain
  return (commitment, rest)

namespace ExecFrame

def writeAttachment : Option Bytes → Except FrameError Bytes
  | none => .ok [0]
  | some attachment => do
    let attachment ← serializeBoundedBytes attachment maxDirectRangeBytes "exec.direct.attachment"
    return 1 :: attachment

def serialize : ExecFrame → Except FrameError Bytes
  | .message commitment data => do
    let commitment ← writeCommitment commitment
    let data ← serializeBoundedBytes data maxEffectPayloadBytes "exec.data"
    return 0 :: (commitment ++ data)
  | .stepSignature commitment signature => do
    let commitment ← writeCommitment commitment
    return 1 :: (commitment ++ signature.bytes)
  | .abort occurrence => do
    let occurrence ← okOr (AbortOccurrence.codec.toVec occurrence) .field
    return 2 :: occurrence
  | .stepCertificate certificate => do
    let commitment ← writeCommitment certificate.commitment
    let signers ← serializeBoundedBytes certificate.agreement.signers.bytes maxExecSignerBytes
      "exec.signers"
    return 3 :: (commitment ++ (signers ++ certificate.agreement.aggregate.bytes))
  | .direct seq msg attachment => do
    let msg ← serializeBoundedBytes msg maxDirectControlBytes "exec.direct.msg"
    let attachment ← writeAttachment attachment
    return 4 :: (Codec.u64.encode seq ++ msg ++ attachment)

def readAttachment : Bytes → Except FrameError (Option Bytes × Bytes)
  | [] => .error .field
  | tag :: rest =>
    match tag.toNat with
    | 0 => .ok (none, rest)
    | 1 => do
      let (attachment, rest) ← readBoundedBytes rest maxDirectRangeBytes "exec.direct.attachment"
      return (some attachment, rest)
    | _ => .error (.attachmentTag tag)

def deserialize : Bytes → Except FrameError (ExecFrame × Bytes)
  | [] => .error .field
  | tag :: rest =>
    match tag.toNat with
    | 0 => do
      let (commitment, rest) ← readCommitment rest
      let (data, rest) ← readBoundedBytes rest maxEffectPayloadBytes "exec.data"
      return (.message commitment data, rest)
    | 1 => do
      let (commitment, rest) ← readCommitment rest
      let (signature, rest) ← okOr ((Codec.fixed 48).decode rest) .field
      return (.stepSignature commitment signature, rest)
    | 2 => do
      let (occurrence, rest) ← okOr (AbortOccurrence.codec.decode rest) .field
      return (.abort occurrence, rest)
    | 3 => do
      let (commitment, rest) ← readCommitment rest
      let (signers, rest) ← readBoundedBytes rest maxExecSignerBytes "exec.signers"
      let (aggregate, rest) ← okOr ((Codec.fixed 48).decode rest) .field
      return (.stepCertificate ⟨commitment, ⟨aggregate, ⟨signers⟩⟩⟩, rest)
    | 4 => do
      let (seq, rest) ← okOr (Codec.u64.decode rest) .field
      let (msg, rest) ← readBoundedBytes rest maxDirectControlBytes "exec.direct.msg"
      let (attachment, rest) ← readAttachment rest
      return (.direct seq msg attachment, rest)
    | _ => .error (.unknownTag tag)

/-! ## The layout -/

def commitmentCodec : Codec StepCommitment :=
  StepCommitment.codec.checked StepCommitment.hasStepDomain

/-- The fields of the five kinds in the order of their tags, over codecs for the parts. -/
def layoutOf (commitment : Codec StepCommitment) (occurrence : Codec AbortOccurrence)
    (data signers msg attachment : Codec Bytes) : Codec ExecFrame :=
  (Codec.enum (.cons (commitment.pair data) (.cons (commitment.pair (Codec.fixed 48))
    (.cons occurrence (.cons (commitment.pair <| signers.pair (Codec.fixed 48))
    (.last (Codec.u64.pair <| msg.pair attachment.option))))))).equiv
  { toFun := fun
      | .inl (commitment, data) => .message commitment data
      | .inr (.inl (commitment, signature)) => .stepSignature commitment signature
      | .inr (.inr (.inl occurrence)) => .abort occurrence
      | .inr (.inr (.inr (.inl (commitment, signers, aggregate)))) =>
        .stepCertificate ⟨commitment, ⟨aggregate, ⟨signers⟩⟩⟩
      | .inr (.inr (.inr (.inr (seq, msg, attachment)))) => .direct seq msg attachment
    invFun := fun
      | .message commitment data => .inl (commitment, data)
      | .stepSignature commitment signature => .inr (.inl (commitment, signature))
      | .abort occurrence => .inr (.inr (.inl occurrence))
      | .stepCertificate certificate => .inr (.inr (.inr (.inl (certificate.commitment,
          certificate.agreement.signers.bytes, certificate.agreement.aggregate))))
      | .direct seq msg attachment => .inr (.inr (.inr (.inr (seq, msg, attachment))))
    left_inv := by rintro (_ | _ | _ | _ | _) <;> rfl
    right_inv := by rintro (_ | _ | _ | _ | _) <;> rfl }

/-- The layout with the bounds and the checks of the frame codec. -/
def layout : Codec ExecFrame :=
  layoutOf commitmentCodec AbortOccurrence.codec payloadCodec
    (Codec.byteVec maxExecSignerBytes) controlCodec (Codec.byteVec maxDirectRangeBytes)

private theorem canonical_layout : layout.Canonical := by
  have hcommitment : commitmentCodec.Canonical := StepCommitment.canonical_codec.checked _
  exact (((hcommitment.pair (Codec.canonical_byteVec _ _)).cons <|
    (hcommitment.pair (Codec.canonical_fixed 48)).cons <|
    AbortOccurrence.canonical_codec.cons <|
    (hcommitment.pair <| (Codec.canonical_byteVec _ _).pair (Codec.canonical_fixed 48)).cons
    (Codec.canonical_u64.pair <| (Codec.canonical_byteVec _ _).pair
      (Codec.canonical_byteVec _ _).option).last).enum _).equiv _

end ExecFrame

/-! ## Writer and reader follow the layout -/

theorem serializeBoundedBytes_eq_ok {bytes out : Bytes} {max : ℕ} {name : String}
    (hmax : max < 256 ^ 4) :
    serializeBoundedBytes bytes max name = .ok out ↔
      bytes.length ≤ max ∧ Codec.leBytes 4 bytes.length ++ bytes = out := by
  simp only [serializeBoundedBytes, checkBoundedLen, bind_eq_ok, ensure_eq_ok, pure_eq_ok]
  constructor
  · rintro ⟨_, ⟨_, hle, -⟩, rfl⟩
    exact ⟨hle, rfl⟩
  · rintro ⟨hle, rfl⟩
    exact ⟨(), ⟨(), hle, by omega⟩, rfl⟩

theorem readBoundedBytes_eq_ok {bytes : Bytes} {p : Bytes × Bytes} {max : ℕ} {name : String} (hmax) :
    readBoundedBytes bytes max name = .ok p ↔ (Codec.byteVec max hmax).decode bytes = some p := by
  have hdecode : (Codec.byteVec max hmax).decode bytes = ((Codec.le 4).decode bytes).bind
      fun q => if q.1 ≤ max then Codec.takeBytes q.1 q.2 else none := rfl
  simp only [hdecode, readBoundedBytes, bind_eq_ok, okOr_eq_ok, ensure_eq_ok,
    Option.bind_eq_some_iff]
  constructor
  · rintro ⟨q, hlength, _, hle, htake⟩
    exact ⟨q, hlength, by rw [if_pos hle]; exact htake⟩
  · rintro ⟨q, hlength, htake⟩
    split at htake
    · rename_i hle
      exact ⟨q, hlength, (), hle, htake⟩
    · cases htake

theorem writeCommitment_eq_ok {commitment : StepCommitment} {out : Bytes} :
    writeCommitment commitment = .ok out ↔
      commitment.hasStepDomain = true ∧ StepCommitment.codec.encode commitment = out := by
  simp [writeCommitment, ensure_eq_ok]

theorem readCommitment_eq_ok {bytes : Bytes} {p : StepCommitment × Bytes} :
    readCommitment bytes = .ok p ↔ ExecFrame.commitmentCodec.decode bytes = some p := by
  have hdecode : ExecFrame.commitmentCodec.decode bytes =
      (StepCommitment.codec.decode bytes).filter fun q => q.1.hasStepDomain := rfl
  rw [hdecode, readCommitment, Option.filter_eq_some_iff]
  simp only [bind_eq_ok, okOr_eq_ok, ensure_eq_ok, pure_eq_ok, Prod.exists]
  constructor
  · rintro ⟨commitment, rest, hread, _, hdomain, rfl⟩
    exact ⟨hread, hdomain⟩
  · rintro ⟨hread, hdomain⟩
    exact ⟨p.1, p.2, hread, (), hdomain, rfl⟩

namespace ExecFrame

theorem layout_encode (f : ExecFrame) : layout.encode f = f.encode := by
  cases f with
  | direct seq msg attachment =>
    cases attachment with
    | none => exact congrArg (List.cons 4) (List.append_assoc _ _ _).symm
    | some bytes => exact congrArg (List.cons 4) (List.append_assoc _ _ _).symm
  | _ => rfl

theorem layout_fits (f : ExecFrame) : layout.fits f = f.fits := by
  cases f with
  | stepSignature commitment signature => exact Bool.and_true _
  | stepCertificate certificate =>
    exact congrArg (certificate.commitment.hasStepDomain && ·) (Bool.and_true _)
  | direct seq msg attachment => cases attachment <;> rfl
  | _ => rfl

theorem writeAttachment_eq_ok {attachment : Option Bytes} {out : Bytes} :
    writeAttachment attachment = .ok out ↔
      attachment.all (·.length ≤ maxDirectRangeBytes) = true ∧ (match attachment with
        | none => [0]
        | some bytes => 1 :: (Codec.leBytes 4 bytes.length ++ bytes)) = out := by
  have hrange : maxDirectRangeBytes < 256 ^ 4 := by decide
  cases attachment with
  | none => simp [writeAttachment]
  | some bytes =>
    rw [writeAttachment, bind_eq_ok_of_iff fun _ => serializeBoundedBytes_eq_ok hrange, pure_eq_ok,
      Option.all_some, decide_eq_true_eq]

theorem serialize_eq_ok {f : ExecFrame} {bytes : Bytes} :
    f.serialize = .ok bytes ↔ f.fits = true ∧ f.encode = bytes := by
  have hpayload : maxEffectPayloadBytes < 256 ^ 4 := by decide
  have hsigners : maxExecSignerBytes < 256 ^ 4 := by decide
  have hcontrol : maxDirectControlBytes < 256 ^ 4 := by decide
  cases f with
  | message commitment data =>
    rw [serialize, bind_eq_ok_of_iff fun _ => writeCommitment_eq_ok,
      bind_eq_ok_of_iff fun _ => serializeBoundedBytes_eq_ok hpayload, pure_eq_ok, fits, encode,
      Bool.and_eq_true, decide_eq_true_eq, and_assoc]
  | stepSignature commitment signature =>
    rw [serialize, bind_eq_ok_of_iff fun _ => writeCommitment_eq_ok, pure_eq_ok, fits, encode]
  | abort occurrence =>
    rw [serialize, bind_eq_ok_of_iff fun _ => okOr_eq_ok.trans (Codec.toVec_eq_some_iff ..),
      pure_eq_ok, fits, encode]
  | stepCertificate certificate =>
    rw [serialize, bind_eq_ok_of_iff fun _ => writeCommitment_eq_ok,
      bind_eq_ok_of_iff fun _ => serializeBoundedBytes_eq_ok hsigners, pure_eq_ok, fits, encode,
      Bool.and_eq_true, decide_eq_true_eq, and_assoc]
    rfl
  | direct seq msg attachment =>
    rw [serialize, bind_eq_ok_of_iff fun _ => serializeBoundedBytes_eq_ok hcontrol,
      bind_eq_ok_of_iff fun _ => writeAttachment_eq_ok, pure_eq_ok, fits, Bool.and_eq_true,
      decide_eq_true_eq, and_assoc]
    cases attachment <;> rfl

theorem readAttachment_eq_ok {bytes : Bytes} {p : Option Bytes × Bytes} :
    readAttachment bytes = .ok p ↔
      (Codec.byteVec maxDirectRangeBytes).option.decode bytes = some p := by
  have hrange : maxDirectRangeBytes < 256 ^ 4 := by decide
  cases bytes with
  | nil => simp [readAttachment, Codec.option, Codec.equiv, Codec.enum]
  | cons tag rest =>
    simp only [readAttachment, Codec.option, Codec.equiv, Codec.enum]
    obtain _ | _ | n := tag.toNat
    · simp [Codec.Variants.cons, Codec.unit]
    · simp only [Codec.Variants.cons, Codec.Variants.last, bind_eq_ok, pure_eq_ok,
        readBoundedBytes_eq_ok hrange, Option.map_map, Option.map_eq_some_iff, Function.comp]
      exact Iff.rfl
    · simp [Codec.Variants.cons, Codec.Variants.last]

theorem deserialize_eq_ok {bytes : Bytes} {p : ExecFrame × Bytes} :
    deserialize bytes = .ok p ↔ layout.decode bytes = some p := by
  have hpayload : maxEffectPayloadBytes < 256 ^ 4 := by decide
  have hsigners : maxExecSignerBytes < 256 ^ 4 := by decide
  have hcontrol : maxDirectControlBytes < 256 ^ 4 := by decide
  cases bytes with
  | nil => simp [deserialize, layout, layoutOf, Codec.equiv, Codec.enum]
  | cons tag rest =>
    simp only [deserialize, layout, layoutOf, Codec.equiv, Codec.enum]
    obtain _ | _ | _ | _ | _ | n := tag.toNat
    · simp only [Codec.Variants.cons, bind_eq_ok, pure_eq_ok, readCommitment_eq_ok,
        readBoundedBytes_eq_ok hpayload, Option.map_map, Option.map_eq_some_iff, Function.comp,
        Codec.pair_decode_eq_some, Prod.exists]
      constructor
      · rintro ⟨c, mid, hc, data, rest, hdata, rfl⟩
        exact ⟨c, data, rest, ⟨mid, hc, hdata⟩, rfl⟩
      · rintro ⟨c, data, rest, ⟨mid, hc, hdata⟩, rfl⟩
        exact ⟨c, mid, hc, data, rest, hdata, rfl⟩
    · simp only [Codec.Variants.cons, bind_eq_ok, pure_eq_ok, okOr_eq_ok, readCommitment_eq_ok,
        Option.map_map, Option.map_eq_some_iff, Function.comp, Codec.pair_decode_eq_some,
        Prod.exists]
      constructor
      · rintro ⟨c, mid, hc, signature, rest, hsignature, rfl⟩
        exact ⟨c, signature, rest, ⟨mid, hc, hsignature⟩, rfl⟩
      · rintro ⟨c, signature, rest, ⟨mid, hc, hsignature⟩, rfl⟩
        exact ⟨c, mid, hc, signature, rest, hsignature, rfl⟩
    · simp only [Codec.Variants.cons, bind_eq_ok, pure_eq_ok, okOr_eq_ok, Option.map_map,
        Option.map_eq_some_iff, Function.comp]
      exact Iff.rfl
    · simp only [Codec.Variants.cons, bind_eq_ok, pure_eq_ok, okOr_eq_ok, readCommitment_eq_ok,
        readBoundedBytes_eq_ok hsigners, Option.map_map, Option.map_eq_some_iff, Function.comp,
        Codec.pair_decode_eq_some, Prod.exists]
      constructor
      · rintro ⟨c, mid, hc, signers, mid', hsigners, aggregate, rest, haggregate, rfl⟩
        exact ⟨c, signers, aggregate, rest, ⟨mid, hc, mid', hsigners, haggregate⟩, rfl⟩
      · rintro ⟨c, signers, aggregate, rest, ⟨mid, hc, mid', hsigners, haggregate⟩, rfl⟩
        exact ⟨c, mid, hc, signers, mid', hsigners, aggregate, rest, haggregate, rfl⟩
    · simp only [Codec.Variants.cons, Codec.Variants.last, bind_eq_ok, pure_eq_ok, okOr_eq_ok,
        readAttachment_eq_ok, readBoundedBytes_eq_ok hcontrol, Option.map_map,
        Option.map_eq_some_iff, Function.comp, Codec.pair_decode_eq_some, Prod.exists]
      constructor
      · rintro ⟨seq, mid, hseq, msg, mid', hmsg, attachment, rest, hattachment, rfl⟩
        exact ⟨seq, msg, attachment, rest, ⟨mid, hseq, mid', hmsg, hattachment⟩, rfl⟩
      · rintro ⟨seq, msg, attachment, rest, ⟨mid, hseq, mid', hmsg, hattachment⟩, rfl⟩
        exact ⟨seq, mid, hseq, msg, mid', hmsg, attachment, rest, hattachment, rfl⟩
    · simp [Codec.Variants.cons, Codec.Variants.last]

/-! ## Bounds -/

/-- What the bounds and the types of a frame promise; the constructors of an abort occurrence check
its shape. -/
def WithinBounds : ExecFrame → Prop
  | .message commitment data =>
    commitment.hasStepDomain = true ∧ data.length ≤ maxEffectPayloadBytes
  | .stepSignature commitment _ => commitment.hasStepDomain = true
  | .abort occurrence => occurrence.validateShape = .ok ()
  | .stepCertificate certificate => certificate.commitment.hasStepDomain = true ∧
      certificate.agreement.signers.bytes.length ≤ maxExecSignerBytes
  | .direct _ msg attachment => msg.length ≤ maxDirectControlBytes ∧
      ∀ bytes ∈ attachment, bytes.length ≤ maxDirectRangeBytes

def Oversized : ExecFrame → Prop
  | .message _ data => maxEffectPayloadBytes < data.length
  | .stepSignature .. => False
  | .abort occurrence => maxTerminalReasonBytes < byteLen occurrence.reason
  | .stepCertificate certificate =>
    maxExecSignerBytes < certificate.agreement.signers.bytes.length
  | .direct _ msg attachment => maxDirectControlBytes < msg.length ∨
      ∃ bytes ∈ attachment, maxDirectRangeBytes < bytes.length

end ExecFrame

namespace ExecFrame

theorem layout_valid {f : ExecFrame} : layout.valid f = true ↔ f.WithinBounds := by
  cases f with
  | message commitment data =>
    show (commitment.hasStepDomain && decide (data.length ≤ maxEffectPayloadBytes)) = true ↔ _
    simp [WithinBounds]
  | stepSignature commitment signature =>
    show (commitment.hasStepDomain && true) = true ↔ _
    simp [WithinBounds]
  | abort occurrence => exact AbortOccurrence.codec_valid
  | stepCertificate certificate =>
    show (certificate.commitment.hasStepDomain &&
      (decide (certificate.agreement.signers.bytes.length ≤ maxExecSignerBytes) && true)) = true ↔ _
    simp [WithinBounds]
  | direct seq msg attachment =>
    cases attachment with
    | none =>
      show (decide (msg.length ≤ maxDirectControlBytes) && true) = true ↔ _
      simp [WithinBounds]
    | some bytes =>
      show (decide (msg.length ≤ maxDirectControlBytes) &&
        decide (bytes.length ≤ maxDirectRangeBytes)) = true ↔ _
      simp [WithinBounds]

theorem not_fits_of_oversized {f : ExecFrame} (h : f.Oversized) : f.fits = false := by
  cases f with
  | message commitment data =>
    simp only [Oversized] at h
    simp [fits, h]
  | stepSignature commitment signature => exact absurd h not_false
  | abort occurrence =>
    have hle : ¬ (Codec.utf8 occurrence.reason).length ≤ maxTerminalReasonBytes := not_le.2 h
    simp [fits, AbortOccurrence.codec, AbortOccurrence.fieldsCodec, hle]
  | stepCertificate certificate =>
    simp only [Oversized] at h
    simp [fits, h]
  | direct seq msg attachment =>
    rcases h with h | ⟨bytes, hbytes, h⟩
    · simp [fits, h]
    · obtain rfl := Option.mem_def.1 hbytes
      simp [fits, h]

theorem length_encode_le {f : ExecFrame} (h : f.WithinBounds) :
    f.encode.length ≤ maxExecFrameBytes := by
  have hpayload : maxEffectPayloadBytes = 65536 := rfl
  have hmax : maxExecFrameBytes = 65733 := rfl
  cases f with
  | message commitment data =>
    have hle := h.2
    simp only [encode, List.length_cons, List.length_append, commitment.length_encode,
      Codec.length_leBytes]
    omega
  | stepSignature commitment signature =>
    have hlen := signature.length_eq
    simp only [encode, List.length_cons, List.length_append, commitment.length_encode, hlen]
    omega
  | abort occurrence =>
    have hreason : maxTerminalReasonBytes = 4096 := rfl
    have hle := (AbortOccurrence.validateShape_eq_ok.1 h).2.2
    simp only [encode, List.length_cons, occurrence.length_encode]
    omega
  | stepCertificate certificate =>
    have hsigners : maxExecSignerBytes = 8 := rfl
    have hlen := certificate.agreement.aggregate.length_eq
    have hle := h.2
    simp only [encode, SignerSet.codec, Codec.equiv_encode, Codec.byteVec_encode,
      Equiv.coe_fn_symm_mk, List.length_cons, List.length_append, StepCommitment.length_encode,
      Codec.length_leBytes, hlen]
    omega
  | direct seq msg attachment =>
    have hcontrol : maxDirectControlBytes = 2048 := rfl
    have hrange : maxDirectRangeBytes = 32768 := rfl
    have hle := h.1
    cases attachment with
    | none =>
      simp only [encode, List.length_cons, List.length_append, Codec.length_u64_encode,
        Codec.length_leBytes, List.length_nil]
      omega
    | some bytes =>
      have hle' := h.2 bytes rfl
      simp only [encode, List.length_cons, List.length_append, Codec.length_u64_encode,
        Codec.length_leBytes]
      omega

/-! ## Frames without bounds -/

def stockOccurrence : Codec AbortOccurrence :=
  AbortOccurrence.fieldsCodec (Codec.string _ u32Max_lt)

/-- The stock Borsh layout of a frame: every length a prefix can name, no checks. -/
def stockLayout : Codec ExecFrame :=
  layoutOf StepCommitment.codec stockOccurrence (Codec.byteVec _ u32Max_lt)
    (Codec.byteVec _ u32Max_lt) (Codec.byteVec _ u32Max_lt)
    (Codec.byteVec _ u32Max_lt)

theorem stockLayout_encode (f : ExecFrame) : stockLayout.encode f = layout.encode f := by
  cases f with
  | direct seq msg attachment => cases attachment <;> rfl
  | _ => rfl

theorem stockLayout_valid {f : ExecFrame} (h : f.WithinBounds) : stockLayout.valid f = true := by
  cases f with
  | message commitment data =>
    have hle := h.2.trans (show maxEffectPayloadBytes ≤ 256 ^ 4 - 1 by decide)
    exact decide_eq_true hle
  | stepSignature commitment signature => rfl
  | abort occurrence =>
    have hle := (AbortOccurrence.validateShape_eq_ok.1 h).2.2
    have hkind : AbortKind.codec.valid occurrence.kind = true := by
      cases occurrence.kind <;> rfl
    have hstring : (Codec.utf8 occurrence.reason).length ≤ 256 ^ 4 - 1 :=
      le_trans hle (by decide)
    show stockOccurrence.valid occurrence = true
    simp only [stockOccurrence, AbortOccurrence.fieldsCodec, Codec.equiv_valid,
      Equiv.coe_fn_symm_mk, Codec.pair_valid, hkind, Codec.string_valid, hstring, decide_true]
    rfl
  | stepCertificate certificate =>
    have hle := h.2.trans (show maxExecSignerBytes ≤ 256 ^ 4 - 1 by decide)
    exact Bool.and_eq_true_iff.2 ⟨decide_eq_true hle, rfl⟩
  | direct seq msg attachment =>
    have hle := h.1.trans (show maxDirectControlBytes ≤ 256 ^ 4 - 1 by decide)
    cases attachment with
    | none =>
      exact Bool.and_eq_true_iff.2 ⟨decide_eq_true hle, rfl⟩
    | some bytes =>
      have hle' := (h.2 bytes rfl).trans (show maxDirectRangeBytes ≤ 256 ^ 4 - 1 by decide)
      exact Bool.and_eq_true_iff.2 ⟨decide_eq_true hle, decide_eq_true hle'⟩

/-- The reader returns what the stock layout holds, and only within the bounds. -/
theorem deserialize_stock {bytes rest : Bytes} {f : ExecFrame}
    (h : deserialize bytes = .ok (f, rest)) :
    f.WithinBounds ∧ bytes = f.encode ++ rest ∧ stockLayout.decode bytes = some (f, rest) := by
  obtain ⟨hbytes, hvalid⟩ := canonical_layout _ _ _ (deserialize_eq_ok.1 h)
  have hbounds := layout_valid.1 hvalid
  refine ⟨hbounds, layout_encode f ▸ hbytes, ?_⟩
  rw [hbytes, ← stockLayout_encode]
  exact stockLayout.decode_encode f rest (stockLayout_valid hbounds)

end ExecFrame

/-- Execution frames round-trip in both directions: a frame within its bounds is written in at most
the frame bound and read back with nothing left; accepted bytes are what the writer writes for the
frame they hold; and a frame with a field over its bound is refused by the writer, and the reader
refuses the stock bytes of such a frame and never returns one. -/
theorem exec_frames_round_trip :
    (∀ f : ExecFrame, f.WithinBounds → ∃ bytes, f.serialize = .ok bytes ∧
      bytes.length ≤ maxExecFrameBytes ∧ ExecFrame.deserialize bytes = .ok (f, [])) ∧
    (∀ bytes f, ExecFrame.deserialize bytes = .ok (f, []) → f.serialize = .ok bytes) ∧
    ∀ f : ExecFrame, f.Oversized → (∃ error, f.serialize = .error error) ∧
      (∀ bytes rest, ExecFrame.deserialize bytes ≠ .ok (f, rest)) ∧
      ∀ bytes rest, ExecFrame.stockLayout.decode bytes = some (f, rest) →
        ∃ error, ExecFrame.deserialize bytes = .error error := by
  refine ⟨?_, ?_, ?_⟩
  · intro f h
    have hvalid := ExecFrame.layout_valid.2 h
    have hfits : f.fits = true := f.layout_fits ▸ ExecFrame.layout.fits_of_valid f hvalid
    refine ⟨f.encode, ExecFrame.serialize_eq_ok.2 ⟨hfits, rfl⟩, ExecFrame.length_encode_le h, ?_⟩
    have hread := ExecFrame.layout.decode_encode f [] hvalid
    rw [List.append_nil, ExecFrame.layout_encode] at hread
    exact ExecFrame.deserialize_eq_ok.2 hread
  · intro bytes f h
    obtain ⟨hbounds, hbytes, -⟩ := ExecFrame.deserialize_stock h
    have hvalid := ExecFrame.layout_valid.2 hbounds
    have hfits : f.fits = true := f.layout_fits ▸ ExecFrame.layout.fits_of_valid f hvalid
    rw [List.append_nil] at hbytes
    exact ExecFrame.serialize_eq_ok.2 ⟨hfits, hbytes.symm⟩
  · intro f h
    have hrefused : ∀ bytes rest, ExecFrame.deserialize bytes ≠ .ok (f, rest) := by
      intro bytes rest hread
      have hbounds := (ExecFrame.deserialize_stock hread).1
      have hfits := ExecFrame.layout.fits_of_valid f (ExecFrame.layout_valid.2 hbounds)
      rw [ExecFrame.layout_fits, ExecFrame.not_fits_of_oversized h] at hfits
      cases hfits
    refine ⟨?_, hrefused, ?_⟩
    · cases hwrite : f.serialize with
      | error error => exact ⟨error, rfl⟩
      | ok bytes =>
        have hfits := (ExecFrame.serialize_eq_ok.1 hwrite).1
        rw [ExecFrame.not_fits_of_oversized h] at hfits
        cases hfits
    · intro bytes rest hstock
      cases hread : ExecFrame.deserialize bytes with
      | error error => exact ⟨error, rfl⟩
      | ok p =>
        obtain ⟨f', rest'⟩ := p
        have hsame := (ExecFrame.deserialize_stock hread).2.2
        rw [hstock] at hsame
        cases hsame
        exact absurd hread (hrefused bytes rest)

/-- A direct frame with an attachment reads back, and one whose message is a byte too long is
refused. -/
theorem exec_frames_round_trip_direct :
    (∃ bytes, (ExecFrame.direct 7 [1, 2] (some [3])).serialize = .ok bytes ∧
      ExecFrame.deserialize bytes = .ok (.direct 7 [1, 2] (some [3]), [])) ∧
    ∃ error, (ExecFrame.direct 7 (List.replicate 2049 0) none).serialize = .error error := by
  obtain ⟨hwithin, -, hover⟩ := exec_frames_round_trip
  obtain ⟨bytes, hwrite, -, hread⟩ := hwithin (.direct 7 [1, 2] (some [3]))
    ⟨by decide, fun attachment hattachment => by
      obtain rfl := Option.mem_some.1 hattachment
      decide⟩
  refine ⟨⟨bytes, hwrite, hread⟩, (hover (.direct 7 (List.replicate 2049 0) none) (.inl ?_)).1⟩
  rw [List.length_replicate]
  decide

end Arena0
