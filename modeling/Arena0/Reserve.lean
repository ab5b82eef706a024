import Arena0.Receipt

/-!
# The receipt reserve

The space kept for everything of a receipt but its trace.  A completed receipt
with the longest outcome is the largest empty-trace artifact, so the reserve has
a closed form and covers every termination the code admits.
-/

namespace Arena0

open Borsh Fallible

variable {κ : Primitives}

/-! ## Lengths of the terminal evidence -/

theorem byteLen_reservedReason : byteLen ReceiptArtifact.reservedReason = maxTerminalReasonBytes :=
  Codec.length_utf8_replicate _ _ (by decide)

theorem AbortOccurrence.length_encode (o : AbortOccurrence) :
    (codec.encode o).length = 235 + byteLen o.reason := by
  have hkind : (AbortKind.codec.encode o.kind).length = 1 := by cases o.kind <;> rfl
  simp only [codec, fieldsCodec, StepCursor.codec, Codec.guarded_encode, Codec.equiv_encode,
    Codec.pair_encode, Codec.string_encode, Equiv.coe_fn_symm_mk, List.length_append,
    Codec.length_fixed_encode,
    Codec.length_u16_encode, Codec.length_u32_encode, Codec.length_u64_encode,
    Id.length_codec_encode, Codec.length_leBytes, hkind, byteLen]
  omega

theorem StepCommitment.length_encode (c : StepCommitment) : (codec.encode c).length = 192 := by
  simp only [codec, Codec.equiv_encode, Codec.pair_encode, Equiv.coe_fn_symm_mk,
    List.length_append, Codec.length_fixed_encode, Codec.length_u64_encode,
    Id.length_codec_encode]

theorem ReceiptTermination.length_encode_completed : (codec.encode .completed).length = 1 := rfl

theorem ReceiptTermination.length_encode_authenticated (o : AbortOccurrence) :
    (codec.encode (.stopped (.authenticated o))).length = 237 + byteLen o.reason := by
  change (1 :: 0 :: AbortOccurrence.codec.encode o).length = _
  simp only [List.length_cons, o.length_encode]
  omega

theorem ReceiptTermination.length_encode_shared (k : AbortKind) (c : StepCommitment)
    (reason : String) :
    (codec.encode (.stopped (.shared k c reason))).length = 199 + byteLen reason := by
  have hkind : (AbortKind.codec.encode k).length = 1 := by cases k <;> rfl
  change (1 :: 1 :: (AbortKind.codec.encode k ++ (StepCommitment.codec.encode c ++
    reasonCodec.encode reason))).length = _
  simp only [List.length_cons, List.length_append, c.length_encode, hkind, Codec.string_encode,
    Codec.length_leBytes, byteLen]
  omega

theorem ReceiptBody.length_encode (body : ReceiptBody κ) :
    body.encode.length = 13 + (Activation.codec.encode body.header.activation).length +
      (ReceiptTermination.codec.encode body.header.terminal).length + body.outcome.length +
      body.params.length + (TraceEntry.codec.encodeAll body.trace).length := by
  simp only [encode, fieldsCodec, SessionHeader.codec, List.length_cons, Codec.equiv_encode,
    Codec.pair_encode, Equiv.coe_fn_symm_mk, List.length_append, Codec.byteVec_encode,
    Codec.vec_encode, Codec.length_leBytes]
  omega

/-! ## Encodable parts -/

theorem Activation.codec_valid (a : Activation κ) : codec.valid a = true := by
  have hset := a.prepared.ticketSet
  have hlen := hset.bounds.2
  have hoffer := hset.length_offer
  have hmax : maxParticipants ≤ 256 ^ 4 - 1 := by decide
  have hok : a.prepared.offer.validate.isOk = true := by rw [hset.offer_valid]; rfl
  have htickets : ∀ t : Ticket, Ticket.codec.valid t = true := by
    intro t
    simpa [Ticket.codec] using t.data.codec_valid
  have hhashes := ticketHashesCodec_valid (l := a.prepared.offer.tickets) (by omega)
  have hlist : (Codec.vec _ Ticket.codec u32Max_lt).valid a.prepared.tickets
      = true := by
    simp only [Codec.vec_valid, Bool.and_eq_true, decide_eq_true_eq, List.all_eq_true]
    exact ⟨by omega, fun t _ => htickets t⟩
  simp only [codec, PreparedActivation.codec, Offer.codec, Codec.partialInv_valid, Codec.pair_valid,
    Codec.guarded_valid, Codec.equiv_valid, Equiv.coe_fn_symm_mk, OfferData.codec_valid, hhashes,
    hlist, hok,
    Codec.fixed_valid, Codec.u8, Codec.word, Bool.and_self]

theorem Activation.params_le (a : Activation κ) :
    a.offer.data.params.bytes.length ≤ maxParamsLen := by
  have h := a.prepared.ticketSet.offer_valid
  simp only [Offer.validate, OfferData.validate, checkParamsLen, bind_eq_ok, ensure_eq_ok] at h
  obtain ⟨_, ⟨_, _, _, _, _, hle, _⟩, _⟩ := h
  exact hle

theorem StopCause.codec_fits (cause : StopCause) :
    codec.fits cause = true ↔ byteLen (match cause with
      | .authenticated o => o.reason
      | .shared _ _ reason => reason) ≤ maxTerminalReasonBytes := by
  have hkind : ∀ k : AbortKind, AbortKind.codec.fits k = true := fun k => by cases k <;> rfl
  cases cause with
  | authenticated o =>
    change AbortOccurrence.codec.fits o = true ↔ _
    simp [AbortOccurrence.codec, AbortOccurrence.fieldsCodec, StepCursor.codec, Codec.u16,
      Codec.u32, Codec.u64, Codec.word, hkind, byteLen]
  | shared k c reason =>
    change ((AbortKind.codec.fits k) && (StepCommitment.codec.fits c &&
      reasonCodec.fits reason)) = true ↔ _
    simp [StepCommitment.codec, Codec.u64, Codec.word, hkind, byteLen]

theorem ReceiptBody.fieldsCodec_fits (body : ReceiptBody κ) :
    fieldsCodec.fits body = true ↔ ReceiptTermination.codec.fits body.header.terminal = true ∧
      body.outcome.length ≤ maxTerminalOutcomeBytes ∧ body.params.length ≤ maxParamsLen ∧
      body.trace.length ≤ maxReceiptTraceEntries ∧
      ∀ entry ∈ body.trace, TraceEntry.codec.fits entry = true := by
  have hact := Activation.codec.fits_of_valid _ body.header.activation.codec_valid
  simp [fieldsCodec, SessionHeader.codec, hact]

/-! ## The reserve -/

namespace ReceiptArtifact

/-- The reserve: a completed receipt with an empty trace and the longest outcome. -/
def reserve (binding : ExecutionBinding κ) : ℕ :=
  15 + maxTerminalOutcomeBytes + (Activation.codec.encode binding.activation).length +
    binding.activation.offer.data.params.bytes.length

theorem shapeLength_eq_ok (binding : ExecutionBinding κ) {terminal : ReceiptTermination}
    {outcome : Bytes} (ht : ReceiptTermination.codec.fits terminal = true)
    (ho : outcome.length ≤ maxTerminalOutcomeBytes) :
    shapeLength binding terminal outcome = .ok (14 +
      (Activation.codec.encode binding.activation).length +
      (ReceiptTermination.codec.encode terminal).length + outcome.length +
      binding.activation.offer.data.params.bytes.length) := by
  have hp := binding.activation.params_le
  simp only [shapeLength, bind_eq_ok, ReceiptBody.toVec_eq_ok, ReceiptBody.fieldsCodec_fits,
    pure_eq_ok]
  refine ⟨_, ⟨⟨ht, ho, hp, by simp, by simp⟩, rfl⟩, ?_⟩
  simp only [List.length_cons, ReceiptBody.length_encode, Codec.encodeAll_nil, List.length_nil]
  omega

theorem unsigned_reserved {binding : ExecutionBinding κ} {o : AbortOccurrence} :
    AbortOccurrence.unsigned binding.sessionId binding.firstSigner .fail 0 reservedReason
        (genesisCursor binding) = .ok o ↔
      binding.sessionId ≠ 0 ∧ binding.firstSigner ≠ 0 ∧
        o = ⟨abortOccurrenceDomain, abortOccurrenceVersion, binding.sessionId,
          binding.firstSigner, .fail, 0, reservedReason, genesisCursor binding, 0⟩ := by
  have hlen := byteLen_reservedReason
  simp only [AbortOccurrence.unsigned, AbortOccurrence.new, AbortOccurrence.validateShape,
    ensurePayload, bind_eq_ok, ensure_eq_ok, pure_eq_ok, genesisCursor, hlen]
  constructor
  · rintro ⟨_, ⟨_, ⟨_, _, hs, hf⟩, _⟩, rfl⟩
    exact ⟨hs, hf, rfl⟩
  · rintro ⟨hs, hf, rfl⟩
    exact ⟨(), ⟨(), ⟨trivial, trivial, hs, hf⟩, (), fun _ => trivial, le_refl _⟩, rfl⟩

/-- The reserve exists unless an identity is the reserved zero, and it is the
completed shape. -/
theorem reservedOverhead_eq_ok {binding : ExecutionBinding κ} {n : ℕ} :
    reservedOverhead binding = .ok n ↔
      binding.sessionId ≠ 0 ∧ binding.firstSigner ≠ 0 ∧ n = reserve binding := by
  have hreason := byteLen_reservedReason
  have hzeros : (List.replicate maxTerminalOutcomeBytes (0 : UInt8)).length ≤
      maxTerminalOutcomeBytes := by simp
  have hcompleted := shapeLength_eq_ok binding (show ReceiptTermination.codec.fits .completed = true
    from rfl) hzeros
  have hstopped : ∀ cause, StopCause.codec.fits cause = true →
      shapeLength binding (.stopped cause) [] = .ok (14 +
        (Activation.codec.encode binding.activation).length +
        (ReceiptTermination.codec.encode (.stopped cause)).length +
        ([] : Bytes).length + binding.activation.offer.data.params.bytes.length) := by
    intro cause hc
    exact shapeLength_eq_ok binding hc (by simp)
  have hshared := hstopped (.shared .fail (reservedCommitment binding) reservedReason)
    ((StopCause.codec_fits _).2 hreason.le)
  have hauth : ∀ o : AbortOccurrence, o.reason = reservedReason →
      shapeLength binding (.stopped (.authenticated o)) [] = .ok (14 +
        (Activation.codec.encode binding.activation).length +
        (237 + maxTerminalReasonBytes) + ([] : Bytes).length +
        binding.activation.offer.data.params.bytes.length) := by
    intro o ho
    have hfits : StopCause.codec.fits (.authenticated o) = true := by
      rw [StopCause.codec_fits]
      simp only [ho, hreason, le_refl]
    rw [hstopped _ hfits, ReceiptTermination.length_encode_authenticated, ho, hreason]
  have hmax : maxTerminalReasonBytes + 237 ≤ maxTerminalOutcomeBytes := by decide
  simp only [reservedOverhead, bind_eq_ok, unsigned_reserved, hcompleted, hshared, pure_eq_ok,
    Except.ok.injEq]
  constructor
  · rintro ⟨o, ⟨hs, hf, ho⟩, _, rfl, m, hm, _, rfl, rfl⟩
    rw [hauth o (by rw [ho])] at hm
    cases hm
    refine ⟨hs, hf, ?_⟩
    simp only [ReceiptTermination.length_encode_shared, ReceiptTermination.length_encode_completed,
      hreason, List.length_nil, List.length_replicate, reserve]
    omega
  · rintro ⟨hs, hf, rfl⟩
    obtain ⟨o, ho⟩ : ∃ o, AbortOccurrence.unsigned binding.sessionId binding.firstSigner .fail 0
        reservedReason (genesisCursor binding) = .ok o := ⟨_, unsigned_reserved.2 ⟨hs, hf, rfl⟩⟩
    have hparts := unsigned_reserved.1 ho
    refine ⟨o, hparts, _, rfl, _, hauth o (by rw [hparts.2.2]), _, rfl, ?_⟩
    simp only [ReceiptTermination.length_encode_shared, ReceiptTermination.length_encode_completed,
      hreason, List.length_nil, List.length_replicate, reserve]
    omega

end ReceiptArtifact

end Arena0
