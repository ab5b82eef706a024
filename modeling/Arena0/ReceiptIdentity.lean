import Arena0.ReceiptBytes
import Arena0.ReceiptConsistency

/-!
# What identifies a canonical receipt

A session hash leaves the signatures of the tickets open.  Under fixed ticket
signatures, unique BLS signatures, an honest participant and no collisions, a
session has one canonical receipt: the collective signature, the agreements of
the steps and the terminal evidence are all determined.
-/

namespace Arena0

open Borsh Fallible ExecutionState

variable {κ : Primitives}

/-! ## Unique signatures -/

/-- BLS signatures are unique: under fixed keys one aggregate verifies for a message. -/
def UniqueAggregates (κ : Primitives) : Prop :=
  ∀ aggregate aggregate' message keys,
    κ.blsFastAggregateVerify aggregate message keys = .ok true →
    κ.blsFastAggregateVerify aggregate' message keys = .ok true → aggregate = aggregate'

theorem UniqueAggregates.eq_of_verify (h : UniqueAggregates κ) {x y : BlsSignature}
    {message : Bytes} {keys : List BlsPublicKey}
    (hx : fastAggregateVerify κ x message keys = .ok true)
    (hy : fastAggregateVerify κ y message keys = .ok true) : x = y := by
  unfold fastAggregateVerify at hx hy
  split at hx
  · cases hx
  · rename_i hkeys
    rw [if_neg hkeys] at hy
    exact h x y message keys hx hy

theorem Activation.eq_of_prepared (hunique : UniqueAggregates κ) {a b : Activation κ}
    (h : a.prepared = b.prepared) : a = b := by
  obtain ⟨p, x, hx⟩ := a
  obtain ⟨q, y, hy⟩ := b
  obtain rfl : p = q := h
  have hverify : ∀ {z}, validateActivation p z = .ok () →
      fastAggregateVerify κ z p.activationData.signingBytes (ticketKeys p.tickets) = .ok true := by
    intro z hz
    simp only [validateActivation, bind_eq_ok, mapError_eq_ok, ensure_eq_ok] at hz
    obtain ⟨_, -, _, hverify, rfl⟩ := hz
    exact hverify
  obtain rfl := hunique.eq_of_verify (hverify hx) (hverify hy)
  rfl

theorem SignerSet.validate_eq_ok {s : SignerSet} {n : ℕ} (h : s.validate n = .ok ()) :
    s.bytes.length = byteLength n ∧
      (n % 8 = 0 ∨ (s.bytes.getD (byteLength n - 1) 0).toNat < 2 ^ (n % 8)) := by
  simp only [validate, bind_eq_ok, ensure_eq_ok] at h
  obtain ⟨_, -, _, hle, _, hge, hlast⟩ := h
  exact ⟨le_antisymm hle hge, hlast⟩

theorem SignerSet.testBit_of_full {s : SignerSet} {n : ℕ} (hvalid : s.validate n = .ok ())
    (hfull : s.isFull n = true) {j : ℕ} (hj : j < s.bytes.length) (k : ℕ) :
    (s.bytes[j]).toNat.testBit k = decide (k < 8 ∧ 8 * j + k < n) := by
  obtain ⟨hlength, hlast⟩ := validate_eq_ok hvalid
  rw [byteLength] at hlength hlast
  by_cases hk : k < 8
  · by_cases hi : 8 * j + k < n
    · have hcontains : s.contains (8 * j + k) = true :=
        List.all_eq_true.1 hfull _ (List.mem_range.2 hi)
      have hdiv : (8 * j + k) / 8 = j := by omega
      have hmod : (8 * j + k) % 8 = k := by omega
      simp only [contains, hdiv, hmod, List.getElem?_eq_getElem hj] at hcontains
      simp [hcontains, hk, hi]
    · -- only the last byte has bits past the participants, and they are zero
      have hmod : n % 8 ≠ 0 := by omega
      have hindex : (n + 7) / 8 - 1 = j := by omega
      have hsmall := hlast.resolve_left hmod
      rw [hindex, List.getD_eq_getElem?_getD, List.getElem?_eq_getElem hj, Option.getD_some] at hsmall
      have hbit : (s.bytes[j]).toNat < 2 ^ k :=
        lt_of_lt_of_le hsmall (Nat.pow_le_pow_right (by omega) (by omega))
      simp [Nat.testBit_lt_two_pow hbit, hi]
  · have hbyte : (s.bytes[j]).toNat < 2 ^ k :=
      lt_of_lt_of_le (s.bytes[j]).toNat_lt (Nat.pow_le_pow_right (by omega) (by omega))
    simp [Nat.testBit_lt_two_pow hbyte, hk]

theorem SignerSet.eq_of_full {s t : SignerSet} {n : ℕ} (hs : s.validate n = .ok ())
    (ht : t.validate n = .ok ()) (hfull : s.isFull n = true) (hfull' : t.isFull n = true) :
    s = t := by
  have hlength : s.bytes.length = t.bytes.length :=
    (validate_eq_ok hs).1.trans (validate_eq_ok ht).1.symm
  have hbytes : s.bytes = t.bytes := by
    refine List.ext_getElem hlength fun j hj hj' => ?_
    refine UInt8.toNat_inj.1 (Nat.eq_of_testBit_eq fun k => ?_)
    rw [testBit_of_full hs hfull hj k, testBit_of_full ht hfull' hj' k]
  cases s
  cases t
  exact congrArg SignerSet.mk hbytes

theorem AggregateAttestation.eq_of_verify (hunique : UniqueAggregates κ)
    {a b : AggregateAttestation} {commitment : StepCommitment} {keys : List BlsPublicKey}
    (ha : verifyFullAgreement κ a commitment keys = .ok ())
    (hb : verifyFullAgreement κ b commitment keys = .ok ()) : a = b := by
  simp only [verifyFullAgreement, verifySignatures, bind_eq_ok, mapError_eq_ok, ensure_eq_ok]
    at ha hb
  obtain ⟨_, ⟨-, hfull⟩, _, hvalid, _, -, _, hverify, rfl⟩ := ha
  obtain ⟨_, ⟨-, hfull'⟩, _, hvalid', _, -, _, hverify', rfl⟩ := hb
  obtain ⟨x, signers⟩ := a
  obtain ⟨y, signers'⟩ := b
  obtain rfl : signers = signers' := SignerSet.eq_of_full hvalid hvalid' hfull hfull'
  obtain rfl : x = y := hunique.eq_of_verify hverify hverify'
  rfl

/-! ## Traces -/

theorem traceLink_normalized (sessionId : SessionHash) (link : FixedBytes 32)
    (entries : List TraceEntry) :
    traceLink κ sessionId link (entries.map TraceEntry.normalized) =
      traceLink κ sessionId link entries := by
  induction entries generalizing link with
  | nil => rfl
  | cons entry rest ih =>
    simp only [List.map_cons, traceLink, StepCommitment.forEntry_normalized]
    exact ih _

theorem CertifiedTrace.eq_of_normalized (hunique : UniqueAggregates κ) {b : ExecutionBinding κ}
    {entries entries' : List TraceEntry} {cursor cursor' : StepCursor}
    (h : CertifiedTrace b entries cursor) (h' : CertifiedTrace b entries' cursor')
    (hshared : entries.map TraceEntry.normalized = entries'.map TraceEntry.normalized) :
    entries = entries' := by
  have hlength : entries.length = entries'.length := by simpa using congrArg List.length hshared
  refine List.ext_getElem hlength fun n hn hn' => ?_
  have he := List.getElem?_eq_getElem hn
  have hf := List.getElem?_eq_getElem hn'
  have hentry : entries[n].normalized = entries'[n].normalized := by
    have hat := congrArg (·[n]?) hshared
    simpa [he, hf] using hat
  have hlink : traceLink κ b.sessionId chainStart (entries.take n) =
      traceLink κ b.sessionId chainStart (entries'.take n) := by
    rw [← traceLink_normalized, ← traceLink_normalized _ _ (entries'.take n), List.map_take,
      List.map_take, hshared]
  -- both agreements are over the commitment of the one shared entry
  have hagreed := (h.commitment he).2.2
  have hagreed' := (h'.commitment hf).2.2
  rw [← StepCommitment.forEntry_normalized, hentry, hlink] at hagreed
  rw [← StepCommitment.forEntry_normalized] at hagreed'
  have hagreement := AggregateAttestation.eq_of_verify hunique hagreed hagreed'
  generalize entries[n] = e at *
  generalize entries'[n] = f at *
  cases e
  cases f
  simp only [TraceEntry.normalized, TraceEntry.mk.injEq] at hentry
  simp_all

/-! ## Canonical receipts -/

namespace ReceiptArtifact

variable {a a' : ReceiptArtifact κ}

def preimages (a : ReceiptArtifact κ) : Set Bytes :=
  a.body.preimages ∪
    { bytes | bytes = a.body.identityBytes ∨ ∃ kind commitment reason,
      a.body.header.terminal = .stopped (.shared kind commitment reason) ∧
          bytes = commitment.signingBytes }

theorem eq_of_body (h : a.body = a'.body) : a = a' := by
  obtain ⟨body, id, hauthentic⟩ := a
  obtain ⟨body', id', hauthentic'⟩ := a'
  obtain rfl : body = body' := h
  obtain rfl := Except.ok.inj (hauthentic.symm.trans hauthentic')
  rfl

theorem authentic_fields (a : ReceiptArtifact κ) :
    a.body.params = a.body.header.activation.offer.data.params.bytes ∧
      (∀ cause, a.body.header.terminal = .stopped cause → a.body.outcome = []) ∧
      ∀ kind commitment reason,
        a.body.header.terminal = .stopped (.shared kind commitment reason) →
          commitment.linkHash κ =
            traceLink κ a.body.binding.sessionId chainStart a.body.trace := by
  have h := a.authentic
  simp only [authenticate, ExecutionBinding.new, validateReceiptBody, bind_eq_ok, pure_eq_ok,
    mapError_eq_ok, ensure_eq_ok] at h
  obtain ⟨_, ⟨_, -, rfl⟩, _, ⟨_, hshape, _, -, _, ⟨-, -, -, hparams⟩, hterminal⟩, -⟩ := h
  refine ⟨hparams, fun cause hcause => ?_, fun kind commitment reason hcause => ?_⟩
  · simp only [ReceiptBody.validateShape, bind_eq_ok, hcause, ensure_eq_ok] at hshape
    obtain ⟨_, -, _, -, _, -, _, -, _, -, houtcome⟩ := hshape
    exact houtcome
  · simp only [hcause, validateStoppedReceipt, StopCause.validateBinding, bind_eq_ok,
      okOr_eq_ok, ensure_eq_ok] at hterminal
    obtain ⟨_, -, _, -, _, -, cursor, htrace, -, -, -, hlink⟩ := hterminal
    obtain ⟨-, hcertified, -⟩ := validateReceiptTrace_eq_ok.1 htrace
    exact hlink.trans hcertified.chainHash_eq

theorem getLast?_of_receipt (h : a.kind = .receipt) :
    ∃ entry, a.body.trace.getLast? = some entry ∧ entry.isTerminal = true := by
  obtain ⟨cursor, -, hends⟩ := a.certified
  unfold kind at h
  generalize a.body.header.terminal = terminal at h hends
  match terminal with
  | .completed =>
    obtain ⟨entry, hlast, hterminal⟩ := hends
    exact ⟨entry, hlast, by simp [TraceEntry.isTerminal, hterminal]⟩
  | .stopped (.authenticated _) => cases h
  | .stopped (.shared _ _ _) =>
    obtain ⟨entry, hlast, hterminal⟩ := hends
    exact ⟨entry, hlast, by simp [TraceEntry.isTerminal, hterminal]⟩

theorem terminal_eq_of_trace (hkind : a.kind = .receipt) (hkind' : a'.kind = .receipt)
    (hcollision : Set.InjOn κ.blake3 (a.preimages ∪ a'.preimages))
    (hbinding : a.body.binding = a'.body.binding) (htrace : a.body.trace = a'.body.trace) :
    a.body.header.terminal = a'.body.header.terminal ∧ a.body.outcome = a'.body.outcome := by
  obtain ⟨cursor, -, hends⟩ := a.certified
  obtain ⟨cursor', -, hends'⟩ := a'.certified
  obtain ⟨-, houtcome, hlink⟩ := a.authentic_fields
  obtain ⟨-, houtcome', hlink'⟩ := a'.authentic_fields
  rw [htrace] at hends
  unfold kind at hkind hkind'
  -- the last entry says how the session ended
  cases hterminal : a.body.header.terminal with
  | completed =>
    rw [hterminal] at hends
    obtain ⟨entry, hlast, hend⟩ := hends
    cases hterminal' : a'.body.header.terminal with
    | completed =>
      rw [hterminal'] at hends'
      obtain ⟨entry', hlast', hend'⟩ := hends'
      obtain rfl := Option.some.inj (hlast.symm.trans hlast')
      exact ⟨rfl, StepTerminal.end.inj (Option.some.inj (hend.symm.trans hend'))⟩
    | stopped cause =>
      rw [hterminal'] at hkind' hends'
      cases cause with
      | authenticated occurrence => cases hkind'
      | shared kind commitment reason =>
        obtain ⟨entry', hlast', hend'⟩ := hends'
        obtain rfl := Option.some.inj (hlast.symm.trans hlast')
        cases kind <;> cases hend.symm.trans hend'
  | stopped cause =>
    rw [hterminal] at hkind hends
    cases cause with
    | authenticated occurrence => cases hkind
    | shared kind commitment reason =>
      obtain ⟨entry, hlast, hend⟩ := hends
      cases hterminal' : a'.body.header.terminal with
      | completed =>
        rw [hterminal'] at hends'
        obtain ⟨entry', hlast', hend'⟩ := hends'
        obtain rfl := Option.some.inj (hlast.symm.trans hlast')
        cases kind <;> cases hend'.symm.trans hend
      | stopped cause' =>
        rw [hterminal'] at hkind' hends'
        cases cause' with
        | authenticated occurrence => cases hkind'
        | shared kind' commitment' reason' =>
          obtain ⟨entry', hlast', hend'⟩ := hends'
          obtain rfl := Option.some.inj (hlast.symm.trans hlast')
          have hcommitment : commitment = commitment' := by
            have hsame : commitment.linkHash κ = commitment'.linkHash κ := by
              rw [hlink _ _ _ hterminal, hlink' _ _ _ hterminal', hbinding, htrace]
            exact StepCommitment.signingBytes_injective (hcollision
              (.inl (.inr (.inr ⟨_, _, _, hterminal, rfl⟩)))
              (.inr (.inr (.inr ⟨_, _, _, hterminal', rfl⟩))) hsame)
          have hreason := Option.some.inj (hend.symm.trans hend')
          refine ⟨?_, (houtcome _ hterminal).trans (houtcome' _ hterminal').symm⟩
          cases kind <;> cases kind' <;> cases hreason <;> rw [hcommitment]

/-- A session has one canonical receipt once the signatures of its tickets are fixed. -/
theorem eq_of_tickets (hunique : UniqueAggregates κ)
    (hsession : a.body.header.sessionHash = a'.body.header.sessionHash)
    (htickets : a.body.header.activation.tickets = a'.body.header.activation.tickets)
    (hkind : a.kind = .receipt) (hkind' : a'.kind = .receipt)
    (hcollision : Set.InjOn κ.blake3 (a.preimages ∪ a'.preimages))
    {signs : PeerId → StepCommitment → Prop} {circulating : Set StepCertificate} {peer : PeerId}
    (hunforged : Unforged a.body.binding signs circulating)
    (hcirculating : ∀ x ∈ a.body.certificates ++ a'.body.certificates, x ∈ circulating)
    (hpeer : a.body.binding.isParticipant peer = true)
    (honce : SignsOnce signs a.body.binding.sessionId peer) : a = a' := by
  have hbodies : Set.InjOn κ.blake3 (a.body.preimages ∪ a'.body.preimages) :=
    hcollision.mono (Set.union_subset_union Set.subset_union_left Set.subset_union_left)
  obtain ⟨hoffer, -, -⟩ := session_terms hsession hbodies
  have hactivation : a.body.header.activation = a'.body.header.activation :=
    Activation.eq_of_prepared hunique (PreparedActivation.ext_parts hoffer htickets)
  have hbinding : a.body.binding = a'.body.binding := congrArg ExecutionBinding.mk hactivation
  have hcomparable := sharedTraces_comparable hsession hbodies hunforged hcirculating hpeer honce
  obtain ⟨cursor, hcertified, -⟩ := a.certified
  obtain ⟨cursor', hcertified', -⟩ := a'.certified
  -- neither trace goes past the terminal entry of the other
  have hlast : ∀ {x : ReceiptArtifact κ}, x.kind = .receipt → ∃ entry,
      x.body.sharedTrace.getLast? = some entry ∧ entry.isTerminal = true := by
    intro x hx
    obtain ⟨entry, hentry, hterminal⟩ := getLast?_of_receipt hx
    refine ⟨entry.normalized, ?_, hterminal⟩
    rw [ReceiptBody.sharedTrace, List.getLast?_map, hentry]
    rfl
  obtain ⟨entry, hentry, hterminal⟩ := hlast hkind
  obtain ⟨entry', hentry', hterminal'⟩ := hlast hkind'
  have hle := prefix_of_terminal hcomparable hentry hterminal a'.isTerminal_dropLast_sharedTrace
  have hge := prefix_of_terminal hcomparable.symm hentry' hterminal'
    a.isTerminal_dropLast_sharedTrace
  have hshared : a.body.sharedTrace = a'.body.sharedTrace := hge.eq_of_length_le hle.length_le
  rw [← hbinding] at hcertified'
  have htrace := hcertified.eq_of_normalized hunique hcertified' hshared
  obtain ⟨hheader, houtcome⟩ := terminal_eq_of_trace hkind hkind' hcollision hbinding htrace
  have hparams : a.body.params = a'.body.params := by
    rw [a.authentic_fields.1, a'.authentic_fields.1, hactivation]
  refine eq_of_body ?_
  generalize a.body = body at *
  generalize a'.body = body' at *
  obtain ⟨⟨activation, terminal⟩, outcome, params, trace⟩ := body
  obtain ⟨⟨activation', terminal'⟩, outcome', params', trace'⟩ := body'
  simp only at hactivation hheader houtcome hparams htrace
  subst hactivation hheader houtcome hparams htrace
  rfl

end ReceiptArtifact

end Arena0
