import Arena0.Dispatch

/-!
# Certified traces

A certified trace grows by one entry at a time: each entry extends the cursor
before it, carries an agreement of all participants over its commitment, and
only the last may be terminal.  Validation accepts exactly these traces.  The
commitments of a trace determine its entries when the entry hash has no
collision.
-/

namespace Arena0

open Borsh Fallible ExecutionState

variable {κ : Primitives}

/-! ## The commitments of a trace -/

/-- The commitments of the entries of a trace that starts at a link. -/
def traceCommitments (κ : Primitives) (sessionId : SessionHash) :
    FixedBytes 32 → List TraceEntry → List StepCommitment
  | _, [] => []
  | link, entry :: rest =>
    .forEntry κ sessionId entry link ::
      traceCommitments κ sessionId ((StepCommitment.forEntry κ sessionId entry link).linkHash κ) rest

variable {sessionId : SessionHash} {link : FixedBytes 32} {entries : List TraceEntry}

@[simp] theorem length_traceCommitments :
    (traceCommitments κ sessionId link entries).length = entries.length := by
  induction entries generalizing link with
  | nil => rfl
  | cons entry rest ih => simp [traceCommitments, ih]

theorem traceLink_append {rest : List TraceEntry} :
    traceLink κ sessionId link (entries ++ rest) =
      traceLink κ sessionId (traceLink κ sessionId link entries) rest := by
  induction entries generalizing link with
  | nil => rfl
  | cons entry entries ih => simp [traceLink, ih]

theorem traceCommitments_append {rest : List TraceEntry} :
    traceCommitments κ sessionId link (entries ++ rest) =
      traceCommitments κ sessionId link entries ++
        traceCommitments κ sessionId (traceLink κ sessionId link entries) rest := by
  induction entries generalizing link with
  | nil => rfl
  | cons entry entries ih => simp [traceCommitments, traceLink, ih]

variable {n : ℕ}

theorem getElem?_traceCommitments :
    (traceCommitments κ sessionId link entries)[n]? =
      entries[n]?.map fun entry =>
        .forEntry κ sessionId entry (traceLink κ sessionId link (entries.take n)) := by
  induction entries generalizing link n with
  | nil => simp [traceCommitments]
  | cons entry entries ih =>
    cases n with
    | zero => simp [traceCommitments, traceLink]
    | succ n => simp [traceCommitments, traceLink, ih]

/-! ## Encoded entries -/

namespace TraceEntry

theorem codec_fits {e : TraceEntry} :
    codec.fits e = true ↔ StepEvent.codec.fits e.event = true ∧
      StepTerminal.codec.option.fits e.terminal = true ∧
      e.agreement.signers.bytes.length ≤ 256 ^ 4 - 1 := by
  have hagreement : AggregateAttestation.codec.fits e.agreement =
      decide (e.agreement.signers.bytes.length ≤ 256 ^ 4 - 1) := rfl
  have hword : Codec.u32.fits e.traceVersion = true ∧ Codec.u64.fits e.step = true := ⟨rfl, rfl⟩
  simp [codec, hagreement, hword]

theorem codec_valid {e : TraceEntry} (hversion : e.traceVersion = traceFormatVersion)
    (hfits : codec.fits e = true) : codec.valid e = true := by
  obtain ⟨hevent, hterminal, hsigners⟩ := codec_fits.1 hfits
  have hevent' : StepEvent.codec.valid e.event = true := by
    cases he : e.event with
    | sessionStarted ensemble => exact he ▸ hevent
    | message source data => exact he ▸ hevent
  have hterminal' : StepTerminal.codec.option.valid e.terminal = true := by
    cases ht : e.terminal with
    | none => rfl
    | some terminal =>
      rw [ht] at hterminal
      cases terminal with
      | «end» outcome => exact hterminal
      | abort reason => exact hterminal
      | fail reason => exact hterminal
  have hagreement : AggregateAttestation.codec.valid e.agreement = true :=
    decide_eq_true hsigners
  have hu32 : ∀ w, Codec.u32.valid w = true := fun _ => rfl
  have hu64 : ∀ w, Codec.u64.valid w = true := fun _ => rfl
  simp [codec, hevent', hterminal', hagreement, hu32, hu64, hversion]

theorem length_encode (e : TraceEntry) :
    (codec.encode e).length = 128 + (StepEvent.codec.encode e.event).length +
      (StepTerminal.codec.option.encode e.terminal).length + e.agreement.signers.bytes.length := by
  have hagreement : (AggregateAttestation.codec.encode e.agreement).length =
      52 + e.agreement.signers.bytes.length := by
    have h := e.agreement.aggregate.length_eq
    simp only [AggregateAttestation.codec, SignerSet.codec, Codec.equiv_encode, Codec.pair_encode,
      Codec.fixed_encode, Codec.byteVec_encode, Equiv.coe_fn_symm_mk, List.length_append,
      Codec.length_leBytes, h]
    omega
  simp only [codec, Codec.guarded_encode, Codec.equiv_encode, Codec.pair_encode,
    Equiv.coe_fn_symm_mk, List.length_append, Codec.length_u32_encode, Codec.length_u64_encode,
    Id.length_codec_encode, hagreement]
  omega

theorem length_encode_le {e : TraceEntry} (hfits : codec.fits e = true)
    (hsigners : e.agreement.signers.bytes.length ≤ 8) :
    (codec.encode e).length ≤ maxTraceEntryBytes := by
  obtain ⟨hevent, hterminal, -⟩ := codec_fits.1 hfits
  have hevent' : (StepEvent.codec.encode e.event).length ≤ 65600 := by
    cases he : e.event with
    | sessionStarted ensemble =>
      have hids : ∀ peers : List PeerId,
          (Id.codec.encodeAll peers).length = 32 * peers.length := by
        intro peers
        induction peers with
        | nil => rfl
        | cons peer peers ih =>
          simp only [Codec.encodeAll_cons, List.length_append, Id.length_codec_encode, ih,
            List.length_cons]
          omega
      have hbound := ensemble.bounds.2
      have hlen : (StepEvent.codec.encode (.sessionStarted ensemble)).length =
          5 + 32 * ensemble.peers.length := by
        have henc : StepEvent.codec.encode (.sessionStarted ensemble) =
          0 :: (Codec.leBytes 4 ensemble.peers.length ++ Id.codec.encodeAll ensemble.peers) := rfl
        rw [henc]
        simp only [List.length_cons, List.length_append, Codec.length_leBytes, hids]
        omega
      have hmax : maxParticipants = 64 := rfl
      omega
    | message source data =>
      have hdata : data.length ≤ maxEffectPayloadBytes := by
        rw [he] at hevent
        exact of_decide_eq_true hevent
      have hmax : maxEffectPayloadBytes = 65536 := rfl
      have henc : StepEvent.codec.encode (.message source data) =
          1 :: (Id.codec.encode source ++ (Codec.leBytes 4 data.length ++ data)) := rfl
      rw [henc]
      simp only [List.length_cons, List.length_append, Codec.length_leBytes, Id.length_codec_encode]
      omega
  have hterminal' : (StepTerminal.codec.option.encode e.terminal).length ≤ 65600 := by
    cases ht : e.terminal with
    | none => simp
    | some terminal =>
      rw [ht] at hterminal
      have houtcome : maxTerminalOutcomeBytes = 65536 := rfl
      have hreason : maxTerminalReasonBytes = 4096 := rfl
      cases terminal with
      | «end» outcome =>
        have hle : outcome.length ≤ maxTerminalOutcomeBytes := of_decide_eq_true hterminal
        have henc : StepTerminal.codec.encode (.end outcome) =
          0 :: (Codec.leBytes 4 outcome.length ++ outcome) := rfl
        simp only [Codec.option_encode_some, henc, List.length_cons, List.length_append,
          Codec.length_leBytes]
        omega
      | abort reason | fail reason =>
        have hle : (Codec.utf8 reason).length ≤ maxTerminalReasonBytes := of_decide_eq_true hterminal
        show (1 :: _ :: (Codec.leBytes 4 (Codec.utf8 reason).length ++ Codec.utf8 reason)).length ≤ _
        simp only [List.length_cons, List.length_append, Codec.length_leBytes]
        omega
  have hmax : maxTraceEntryBytes = 262144 := rfl
  rw [e.length_encode]
  omega

end TraceEntry

variable {e : TraceEntry}

/-- The checks of an entry are its version and its two size bounds: the payload bounds are
those of the writer. -/
theorem validateTraceEntry_eq_ok :
    validateTraceEntry e = .ok () ↔ e.traceVersion = traceFormatVersion ∧
      TraceEntry.codec.fits e = true ∧ (TraceEntry.codec.encode e).length ≤ maxTraceEntryBytes := by
  simp only [validateTraceEntry, bind_eq_ok, ensure_eq_ok, okOr_eq_ok, Codec.toVec_eq_some_iff]
  constructor
  · rintro ⟨_, hversion, _, ⟨hfits, rfl⟩, _, hlen, -⟩
    exact ⟨hversion, hfits, hlen⟩
  · rintro ⟨hversion, hfits, hlen⟩
    obtain ⟨hevent, hterminal, -⟩ := TraceEntry.codec_fits.1 hfits
    have hterminal' : ∀ terminal, e.terminal = some terminal → validateTerminal terminal = .ok () := by
      intro terminal ht
      rw [ht] at hterminal
      cases terminal <;>
        simp only [validateTerminal, ensurePayload, ensure_eq_ok] <;>
        exact of_decide_eq_true hterminal
    refine ⟨(), hversion, _, ⟨hfits, rfl⟩, (), hlen, ?_⟩
    cases he : e.event with
    | sessionStarted ensemble =>
      cases ht : e.terminal with
      | none => rfl
      | some terminal => exact hterminal' terminal ht
    | message source data =>
      have hdata : data.length ≤ maxEffectPayloadBytes := by
        rw [he] at hevent
        exact of_decide_eq_true hevent
      simp only [ensurePayload, bind_eq_ok, ensure_eq_ok]
      refine ⟨(), hdata, ?_⟩
      cases ht : e.terminal with
      | none => rfl
      | some terminal => exact hterminal' terminal ht

/-- Without a collision the entry hash determines a valid entry up to its agreement. -/
theorem TraceEntry.normalized_eq_of_entryHash {S : Set Bytes} (hinj : Set.InjOn κ.blake3 S)
    {f : TraceEntry} (he : validateTraceEntry e = .ok ()) (hf : validateTraceEntry f = .ok ())
    (heS : codec.encode e.normalized ∈ S) (hfS : codec.encode f.normalized ∈ S)
    (h : e.entryHash κ = f.entryHash κ) : e.normalized = f.normalized := by
  have hvalid : ∀ {x : TraceEntry}, validateTraceEntry x = .ok () →
      codec.valid x.normalized = true := by
    intro x hx
    obtain ⟨hversion, hfits, -⟩ := validateTraceEntry_eq_ok.1 hx
    obtain ⟨hevent, hterminal, -⟩ := codec_fits.1 hfits
    exact codec_valid hversion (codec_fits.2 ⟨hevent, hterminal, Nat.zero_le _⟩)
  exact codec.encode_inj (hvalid he) (hvalid hf) (hinj heS hfS h)

variable {b : ExecutionBinding κ} {a : AggregateAttestation} {keys : List BlsPublicKey}
  {c : StepCommitment}

theorem validateSharedEntry_agreement {step : UInt64}
    (ha : a.signers.bytes.length ≤ 8) (h : validateSharedEntry b step e = .ok ()) :
    validateSharedEntry b step { e with agreement := a } = .ok () := by
  simp only [validateSharedEntry, bind_eq_ok, ensure_eq_ok] at h ⊢
  obtain ⟨_, hentry, _, hstep, hevent⟩ := h
  obtain ⟨hversion, hfits, -⟩ := validateTraceEntry_eq_ok.1 hentry
  obtain ⟨hfitsEvent, hfitsTerminal, -⟩ := TraceEntry.codec_fits.1 hfits
  have hfits' : TraceEntry.codec.fits { e with agreement := a } = true :=
    TraceEntry.codec_fits.2 ⟨hfitsEvent, hfitsTerminal, ha.trans (by decide)⟩
  refine ⟨(), ?_, (), hstep, hevent⟩
  exact validateTraceEntry_eq_ok.2 ⟨hversion, hfits', TraceEntry.length_encode_le hfits' ha⟩

theorem SignerSet.length_full {signers : SignerSet} (h : SignerSet.full n = .ok signers) :
    signers.bytes.length = SignerSet.byteLength n := by
  simp only [SignerSet.full, bind_eq_ok, pure_eq_ok] at h
  obtain ⟨_, -, rfl⟩ := h
  unfold SignerSet.byteLength
  split
  · simp only [List.length_replicate]
    omega
  · simp only [List.length_append, List.length_replicate, List.length_singleton]
    omega

theorem length_signers_of_verify (h : verifyFullAgreement κ a c keys = .ok ()) :
    a.signers.bytes.length = SignerSet.byteLength keys.length := by
  simp only [verifyFullAgreement, AggregateAttestation.verifySignatures, SignerSet.validate,
    bind_eq_ok, mapError_eq_ok, ensure_eq_ok] at h
  obtain ⟨_, _, _, ⟨_, _, _, hle, _, hge, _⟩, _⟩ := h
  omega

theorem certifiedLength_eq (h : certifiedLength b e = .ok n)
    (ha : a.signers.bytes.length = SignerSet.byteLength b.activation.tickets.length) :
    (TraceEntry.codec.encode { e with agreement := a }).length = n := by
  simp only [certifiedLength, bind_eq_ok, okOr_eq_ok, mapError_eq_ok, pure_eq_ok,
    Codec.toVec_eq_some_iff] at h
  obtain ⟨signers, hfull, _, ⟨_, rfl⟩, rfl⟩ := h
  simp only [TraceEntry.length_encode, ha, SignerSet.length_full hfull]

theorem SignerSet.byteLength_le (h : n ≤ maxParticipants) : SignerSet.byteLength n ≤ 8 := by
  have hmax : maxParticipants = 64 := rfl
  unfold SignerSet.byteLength
  omega

/-! ## Validation -/

variable {cursor : StepCursor} {entry : TraceEntry} {entries' : List TraceEntry}

theorem validateAgreedEntry_eq_ok {next : StepCursor} {last : Bool} :
    validateAgreedEntry b keys cursor entry last = .ok next ↔
      validateSharedEntry b cursor.nextStep entry = .ok () ∧
      cursor.advance κ (.forEntry κ b.sessionId entry cursor.chainHash) = .ok next ∧
      verifyFullAgreement κ entry.agreement (.forEntry κ b.sessionId entry cursor.chainHash) keys
        = .ok () ∧
      (last = true ∨ entry.isTerminal = false) := by
  simp only [validateAgreedEntry, bind_eq_ok, mapError_eq_ok, ensure_eq_ok, pure_eq_ok]
  constructor
  · rintro ⟨_, hentry, _, hadvance, _, hagreed, _, hlast, rfl⟩
    exact ⟨hentry, hadvance, hagreed, hlast⟩
  · rintro ⟨hentry, hadvance, hagreed, hlast⟩
    exact ⟨(), hentry, next, hadvance, (), hagreed, (), hlast, rfl⟩

/-- A longer trace is valid when its front is, no entry of the front is terminal, and the last
entry extends the front. -/
theorem validateAgreedLoop_snoc {next : StepCursor} :
    validateAgreedLoop b keys cursor (entries ++ [entry]) = .ok next ↔
      ∃ mid, validateAgreedLoop b keys cursor entries = .ok mid ∧
        (∀ e ∈ entries, e.isTerminal = false) ∧
        validateAgreedEntry b keys mid entry true = .ok next := by
  induction entries generalizing cursor with
  | nil => simp [validateAgreedLoop]
  | cons e entries ih =>
    have hempty : (entries ++ [entry]).isEmpty = false := by simp
    simp only [List.cons_append, validateAgreedLoop, bind_eq_ok, hempty, ih,
      validateAgreedEntry_eq_ok, Bool.false_eq_true, false_or, true_or, and_true, List.mem_cons,
      forall_eq_or_imp]
    constructor
    · rintro ⟨n, ⟨hentry, hadvance, hagreed, hterm⟩, mid, hmid, hrest, hlast⟩
      exact ⟨mid, ⟨n, ⟨hentry, hadvance, hagreed, .inr hterm⟩, hmid⟩, ⟨hterm, hrest⟩, hlast⟩
    · rintro ⟨mid, ⟨n, ⟨hentry, hadvance, hagreed, -⟩, hmid⟩, ⟨hterm, hrest⟩, hlast⟩
      exact ⟨n, ⟨hentry, hadvance, hagreed, hterm⟩, mid, hmid, hrest, hlast⟩

/-- A trace that all participants have certified from the genesis cursor to the given one. -/
inductive CertifiedTrace (b : ExecutionBinding κ) : List TraceEntry → StepCursor → Prop
  | nil : CertifiedTrace b [] (genesisCursor b)
  | snoc {entries : List TraceEntry} {cursor next : StepCursor} {entry : TraceEntry}
      (h : CertifiedTrace b entries cursor) (hopen : ∀ e ∈ entries, e.isTerminal = false)
      (hentry : validateSharedEntry b cursor.nextStep entry = .ok ())
      (hadvance : cursor.advance κ (.forEntry κ b.sessionId entry cursor.chainHash) = .ok next)
      (hagreed : verifyFullAgreement κ entry.agreement
        (.forEntry κ b.sessionId entry cursor.chainHash) (b.sortedKeys.map (·.2)) = .ok ()) :
      CertifiedTrace b (entries ++ [entry]) next

theorem validateAgreedTrace_eq_ok :
    validateAgreedTrace b entries = .ok cursor ↔ CertifiedTrace b entries cursor := by
  simp only [validateAgreedTrace, ExecutionBinding.participantBlsKeys_eq_ok, ok_bind]
  constructor
  · intro h
    induction entries using List.reverseRecOn generalizing cursor with
    | nil =>
      cases h
      exact .nil
    | append_singleton entries entry ih =>
      obtain ⟨mid, hmid, hopen, hlast⟩ := validateAgreedLoop_snoc.1 h
      obtain ⟨hentry, hadvance, hagreed, -⟩ := validateAgreedEntry_eq_ok.1 hlast
      exact .snoc (ih hmid) hopen hentry hadvance hagreed
  · intro h
    induction h with
    | nil => rfl
    | snoc h hopen hentry hadvance hagreed ih =>
      exact validateAgreedLoop_snoc.2
        ⟨_, ih, hopen, validateAgreedEntry_eq_ok.2 ⟨hentry, hadvance, hagreed, .inl rfl⟩⟩

theorem validateReceiptTrace_eq_ok {terminal : ReceiptTraceTerminal} :
    validateReceiptTrace b entries terminal = .ok cursor ↔
      (terminal = .authenticated ∨ entries ≠ []) ∧ CertifiedTrace b entries cursor ∧
        checkFinalEntry entries.getLast? terminal = .ok () := by
  simp only [validateReceiptTrace, bind_eq_ok, ensure_eq_ok, pure_eq_ok, validateAgreedTrace_eq_ok]
  constructor
  · rintro ⟨_, hne, _, hcertified, _, hfinal, rfl⟩
    exact ⟨hne, hcertified, hfinal⟩
  · rintro ⟨hne, hcertified, hfinal⟩
    exact ⟨(), hne, cursor, hcertified, (), hfinal, rfl⟩

theorem traceCommitments_eq_of_getElem? (hlength : entries.length = entries'.length)
    (h : ∀ (n : ℕ) (c d : StepCommitment), (traceCommitments κ sessionId link entries)[n]? = some c →
      (traceCommitments κ sessionId link entries')[n]? = some d → c = d) :
    traceCommitments κ sessionId link entries = traceCommitments κ sessionId link entries' := by
  refine List.ext_getElem (by simpa using hlength) ?_
  intro n hn hn'
  exact h n _ _ (List.getElem?_eq_getElem hn) (List.getElem?_eq_getElem hn')

namespace CertifiedTrace

variable {b : ExecutionBinding κ} {entries : List TraceEntry} {cursor : StepCursor}

theorem nextStep_toNat (h : CertifiedTrace b entries cursor) :
    cursor.nextStep.toNat = entries.length := by
  induction h with
  | nil => rfl
  | snoc h hopen hentry hadvance hagreed ih =>
    have hnext := checkedAdd_eq_some (StepCursor.advance_eq_ok.1 hadvance).1
    simp only [UInt64.reduceToNat, ih] at hnext
    simp [hnext]

theorem chainHash_eq (h : CertifiedTrace b entries cursor) :
    cursor.chainHash = traceLink κ b.sessionId chainStart entries := by
  induction h with
  | nil => rfl
  | snoc h hopen hentry hadvance hagreed ih =>
    obtain ⟨-, -, -, -, -, hlink⟩ := StepCursor.advance_eq_ok.1 hadvance
    rw [hlink, traceLink_append, ← ih]
    rfl

theorem commitment (h : CertifiedTrace b entries cursor) {n : ℕ} (hn : entries[n]? = some entry) :
    entry.step.toNat = n ∧ validateSharedEntry b entry.step entry = .ok () ∧
      verifyFullAgreement κ entry.agreement
        (.forEntry κ b.sessionId entry (traceLink κ b.sessionId chainStart (entries.take n)))
        (b.sortedKeys.map (·.2)) = .ok () := by
  induction h with
  | nil => simp at hn
  | @snoc entries cursor next last h hopen hentry hadvance hagreed ih =>
    by_cases hlt : n < entries.length
    · rw [List.getElem?_append_left hlt] at hn
      rw [List.take_append_of_le_length hlt.le]
      exact ih hn
    · rw [List.getElem?_append_right (by omega)] at hn
      have hzero : n - entries.length = 0 := by
        by_contra hne
        rw [List.getElem?_eq_none (by simp; omega)] at hn
        cases hn
      have hlen : n = entries.length := by omega
      subst hlen
      simp only [Nat.sub_self, List.getElem?_cons_zero, Option.some.injEq] at hn
      subst hn
      obtain ⟨-, hstep, -⟩ := StepCursor.advance_eq_ok.1 hadvance
      have hstep' : last.step = cursor.nextStep := hstep
      rw [List.take_left, ← h.chainHash_eq, hstep']
      exact ⟨h.nextStep_toNat, hentry, hagreed⟩

theorem map_step (h : CertifiedTrace b entries cursor) :
    entries.map (·.step.toNat) = List.range' 0 entries.length := by
  refine List.ext_getElem? fun n => ?_
  rw [List.getElem?_map]
  cases hn : entries[n]? with
  | none =>
    have hle := List.getElem?_eq_none_iff.1 hn
    rw [List.getElem?_eq_none (by simpa using hle)]
    rfl
  | some entry =>
    have hlt := (List.getElem?_eq_some_iff.1 hn).1
    rw [List.getElem?_range' (by simpa using hlt)]
    simp [(h.commitment hn).1]

theorem entry_valid (h : CertifiedTrace b entries cursor)
    (he : entry ∈ entries) : validateTraceEntry entry = .ok () := by
  obtain ⟨n, hn⟩ := List.mem_iff_getElem?.1 he
  have hshared := (h.commitment hn).2.1
  simp only [validateSharedEntry, bind_eq_ok] at hshared
  obtain ⟨_, hentry, -⟩ := hshared
  exact hentry

/-- Without a collision, traces with the same commitment at a step hold the same entry there. -/
theorem normalized_eq {b' : ExecutionBinding κ} {cursor' : StepCursor}
    {S : Set Bytes} (h : CertifiedTrace b entries cursor) (h' : CertifiedTrace b' entries' cursor')
    (hinj : Set.InjOn κ.blake3 S)
    (hS : ∀ e ∈ entries ++ entries', TraceEntry.codec.encode e.normalized ∈ S) {n : ℕ}
    {e f : TraceEntry} (he : entries[n]? = some e) (hf : entries'[n]? = some f)
    (hsame : ∀ c d, (traceCommitments κ b.sessionId chainStart entries)[n]? = some c →
      (traceCommitments κ b'.sessionId chainStart entries')[n]? = some d → c = d) :
    e.normalized = f.normalized := by
  have hcommitment := hsame _ _ (getElem?_traceCommitments.trans (by rw [he]; rfl))
    (getElem?_traceCommitments.trans (by rw [hf]; rfl))
  have hmem := List.mem_of_getElem? he
  have hmem' := List.mem_of_getElem? hf
  exact TraceEntry.normalized_eq_of_entryHash hinj (h.entry_valid hmem) (h'.entry_valid hmem')
    (hS e (List.mem_append_left _ hmem)) (hS f (List.mem_append_right _ hmem'))
    (congrArg StepCommitment.entryHash hcommitment)

theorem isTerminal_dropLast (h : CertifiedTrace b entries cursor) :
    ∀ e ∈ entries.dropLast, e.isTerminal = false := by
  cases h with
  | nil => simp
  | snoc h hopen hentry hadvance hagreed => simpa using hopen

theorem cursor_eq_of_getLast? (h : CertifiedTrace b entries cursor)
    (hc : (traceCommitments κ b.sessionId chainStart entries).getLast? = some c) :
    cursor = ⟨cursor.nextStep, c.postState, c.linkHash κ⟩ ∧
      cursor.nextStep.toNat = c.step.toNat + 1 := by
  cases h with
  | nil => simp [traceCommitments] at hc
  | @snoc entries mid next entry h hopen hentry hadvance hagreed =>
    rw [traceCommitments_append, ← h.chainHash_eq] at hc
    simp only [traceCommitments, List.getLast?_append, List.getLast?_singleton,
      Option.some_or, Option.some.injEq] at hc
    subst hc
    obtain ⟨-, -, -, -, hstate, hlink⟩ := StepCursor.advance_eq_ok.1 hadvance
    refine ⟨?_, StepCursor.advance_toNat hadvance⟩
    ext1
    · rfl
    · exact hstate
    · exact hlink

theorem step_commitment (h : CertifiedTrace b entries cursor) {n : ℕ}
    (hc : (traceCommitments κ b.sessionId chainStart entries)[n]? = some c) : c.step.toNat = n := by
  rw [getElem?_traceCommitments, Option.map_eq_some_iff] at hc
  obtain ⟨entry, hentry, rfl⟩ := hc
  exact (h.commitment hentry).1

theorem cursor_eq {cursor' : StepCursor}
    (h : CertifiedTrace b entries cursor)
    (h' : CertifiedTrace b entries' cursor') (hlength : entries.length = entries'.length)
    (hcommitments : ∀ (n : ℕ) (c d : StepCommitment),
      (traceCommitments κ b.sessionId chainStart entries)[n]? = some c →
      (traceCommitments κ b.sessionId chainStart entries')[n]? = some d → c = d) :
    cursor = cursor' := by
  have heq := traceCommitments_eq_of_getElem? hlength hcommitments
  have hstep : cursor.nextStep = cursor'.nextStep := by
    refine UInt64.toNat_inj.1 ?_
    rw [h.nextStep_toNat, h'.nextStep_toNat, hlength]
  cases hlast : (traceCommitments κ b.sessionId chainStart entries).getLast? with
  | none =>
    have hnil := List.getLast?_eq_none_iff.1 hlast
    have hzero : entries = [] := List.length_eq_zero_iff.1 (by
      simpa using congrArg List.length hnil)
    have hzero' : entries' = [] := List.length_eq_zero_iff.1 (by simpa [hzero] using hlength.symm)
    subst hzero hzero'
    exact Except.ok.inj ((validateAgreedTrace_eq_ok.2 h).symm.trans (validateAgreedTrace_eq_ok.2 h'))
  | some c =>
    have hcursor := (h.cursor_eq_of_getLast? hlast).1
    have hcursor' := (h'.cursor_eq_of_getLast? (heq ▸ hlast)).1
    rw [hcursor, hcursor', hstep]

end CertifiedTrace

end Arena0
