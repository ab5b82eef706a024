import Arena0.Chain
import Arena0.ReferenceHost
import Arena0.SessionIdentity

/-!
# Receipts are unambiguous

An accepted artifact carries a certificate for each of its steps.  When one
participant of the session signs at most one commitment for a step, any two
accepted artifacts of the session carry the same commitments at their common
steps, and without a hash collision the same entries: the traces are prefixes of
one another, and a completed trace is the longest there is.
-/

namespace Arena0

open Borsh Fallible ExecutionState

variable {κ : Primitives}

namespace ReceiptBody

def binding (body : ReceiptBody κ) : ExecutionBinding κ := ⟨body.header.activation⟩

def commitments (body : ReceiptBody κ) : List StepCommitment :=
  traceCommitments κ body.binding.sessionId chainStart body.trace

/-- The certificates a body carries: the agreement of each entry over its commitment. -/
def certificates (body : ReceiptBody κ) : List StepCertificate :=
  List.zipWith (fun commitment entry => ⟨commitment, entry.agreement⟩) body.commitments body.trace

/-- The shared content of the trace: its entries without their agreements. -/
def sharedTrace (body : ReceiptBody κ) : List TraceEntry := body.trace.map TraceEntry.normalized

/-- The byte strings hashed into the session and the commitments of a body. -/
def preimages (body : ReceiptBody κ) : Set Bytes :=
  body.header.activation.prepared.preimages ∪
    { bytes | ∃ e ∈ body.trace, bytes = TraceEntry.codec.encode e.normalized }

end ReceiptBody

/-! ## What an accepted artifact carries -/

def EndsAs (trace : List TraceEntry) (outcome : Bytes) : ReceiptTermination → Prop
  | .completed => ∃ entry, trace.getLast? = some entry ∧ entry.terminal = some (.end outcome)
  | .stopped (.authenticated _) => ∀ entry ∈ trace, entry.isTerminal = false
  | .stopped (.shared kind _ reason) => ∃ entry, trace.getLast? = some entry ∧
      entry.terminal = some (match kind with
        | .abort => .abort reason
        | .fail => .fail reason)

theorem CertifiedTrace.open_of_getLast? {b : ExecutionBinding κ} {entries : List TraceEntry}
    {cursor : StepCursor} (h : CertifiedTrace b entries cursor)
    (hlast : ∀ entry ∈ entries.getLast?, entry.isTerminal = false) :
    ∀ entry ∈ entries, entry.isTerminal = false := by
  intro entry hentry
  rcases List.eq_nil_or_concat' entries with rfl | ⟨front, last, rfl⟩
  · cases hentry
  · rcases List.mem_append.1 hentry with hfront | hsingle
    · exact h.isTerminal_dropLast entry (by simpa using hfront)
    · obtain rfl := List.mem_singleton.1 hsingle
      exact hlast entry (by simp)

theorem ReceiptArtifact.certified (artifact : ReceiptArtifact κ) :
    ∃ cursor, CertifiedTrace artifact.body.binding artifact.body.trace cursor ∧
      EndsAs artifact.body.trace artifact.body.outcome artifact.body.header.terminal := by
  have h := artifact.authentic
  simp only [authenticate, ExecutionBinding.new, validateReceiptBody, bind_eq_ok, pure_eq_ok,
    mapError_eq_ok, ensure_eq_ok] at h
  obtain ⟨_, ⟨_, -, rfl⟩, _, ⟨_, -, _, -, _, -, hterminal⟩, -⟩ := h
  generalize hheader : artifact.body.header.terminal = terminal at hterminal
  cases terminal with
  | completed =>
    simp only [bind_eq_ok] at hterminal
    obtain ⟨cursor, htrace, -⟩ := hterminal
    obtain ⟨-, hcertified, hfinal⟩ := validateReceiptTrace_eq_ok.1 htrace
    simp only [checkFinalEntry, bind_eq_ok, okOr_eq_ok, ensure_eq_ok] at hfinal
    exact ⟨cursor, hcertified, hfinal⟩
  | stopped cause =>
    simp only [validateStoppedReceipt, bind_eq_ok] at hterminal
    obtain ⟨_, -, hcause⟩ := hterminal
    cases cause with
    | authenticated occurrence =>
      simp only [bind_eq_ok, ensure_eq_ok] at hcause
      obtain ⟨_, -, _, -, _, -, _, -, cursor, htrace, -⟩ := hcause
      obtain ⟨-, hcertified, hfinal⟩ := validateReceiptTrace_eq_ok.1 htrace
      simp only [checkFinalEntry, ensure_eq_ok] at hfinal
      exact ⟨cursor, hcertified, hcertified.open_of_getLast? hfinal⟩
    | shared kind commitment reason =>
      simp only [bind_eq_ok, okOr_eq_ok, ensure_eq_ok] at hcause
      obtain ⟨_, -, _, -, cursor, htrace, -⟩ := hcause
      obtain ⟨-, hcertified, hfinal⟩ := validateReceiptTrace_eq_ok.1 htrace
      simp only [checkFinalEntry, bind_eq_ok, okOr_eq_ok, ensure_eq_ok] at hfinal
      exact ⟨cursor, hcertified, hfinal⟩

theorem ReceiptBody.mem_certificates {body : ReceiptBody κ} {n : ℕ} {c : StepCommitment}
    (h : body.commitments[n]? = some c) :
    ∃ entry, body.trace[n]? = some entry ∧ ⟨c, entry.agreement⟩ ∈ body.certificates ∧
      c = .forEntry κ body.binding.sessionId entry
        (traceLink κ body.binding.sessionId chainStart (body.trace.take n)) := by
  have hentry := h
  rw [commitments, getElem?_traceCommitments, Option.map_eq_some_iff] at hentry
  obtain ⟨entry, hentry, rfl⟩ := hentry
  refine ⟨entry, hentry, List.mem_of_getElem? (i := n) ?_, rfl⟩
  simp only [certificates, List.getElem?_zipWith, h, hentry]

theorem CertifiedTrace.verify {b : ExecutionBinding κ} {entries : List TraceEntry}
    {cursor : StepCursor} (h : CertifiedTrace b entries cursor) {n : ℕ} {entry : TraceEntry}
    (hn : entries[n]? = some entry) :
    StepCertificate.verify ⟨.forEntry κ b.sessionId entry
      (traceLink κ b.sessionId chainStart (entries.take n)), entry.agreement⟩ b = .ok () := by
  have hagreed := (h.commitment hn).2.2
  simp only [StepCertificate.verify, ExecutionBinding.participantBlsKeys_eq_ok, bind_eq_ok,
    ensure_eq_ok]
  exact ⟨(), by simp [StepCommitment.isBoundTo, StepCommitment.hasStepDomain,
    StepCommitment.forEntry], _, rfl, hagreed⟩

/-! ## One signer that signs once -/

/-- The verified certificates in circulation were signed by all participants. -/
def Unforged (b : ExecutionBinding κ) (signs : PeerId → StepCommitment → Prop)
    (circulating : Set StepCertificate) : Prop :=
  ∀ certificate ∈ circulating, certificate.verify b = .ok () →
    ∀ peer, b.isParticipant peer = true → signs peer certificate.commitment

/-- A participant signs at most one commitment for a step of a session. -/
def SignsOnce (signs : PeerId → StepCommitment → Prop) (sessionId : SessionHash)
    (peer : PeerId) : Prop :=
  ∀ c d, signs peer c → signs peer d → c.sessionId = sessionId → d.sessionId = sessionId →
    c.step = d.step → c = d

theorem StepCertificate.verify_congr {b b' : ExecutionBinding κ}
    (hsession : b.sessionId = b'.sessionId) (hkeys : b.sortedKeys = b'.sortedKeys)
    (certificate : StepCertificate) : certificate.verify b = certificate.verify b' := by
  simp only [verify, ExecutionBinding.participantBlsKeys_eq_ok, hsession, hkeys]

theorem StepCertificate.sessionId_eq {b : ExecutionBinding κ} {certificate : StepCertificate}
    (h : certificate.verify b = .ok ()) : certificate.commitment.sessionId = b.sessionId := by
  simp only [verify, bind_eq_ok, ensure_eq_ok, StepCommitment.isBoundTo, Bool.and_eq_true,
    decide_eq_true_eq] at h
  obtain ⟨_, ⟨-, hsession⟩, -⟩ := h
  exact hsession

section

variable {b : ExecutionBinding κ} {signs : PeerId → StepCommitment → Prop}
  {circulating : Set StepCertificate} {peer : PeerId} (hunforged : Unforged b signs circulating)
  (hpeer : b.isParticipant peer = true) (honce : SignsOnce signs b.sessionId peer)

include hunforged hpeer honce

theorem Unforged.commitment_eq {x y : StepCertificate} (hx : x ∈ circulating)
    (hy : y ∈ circulating) (hverify : x.verify b = .ok ()) (hverify' : y.verify b = .ok ())
    (hstep : x.commitment.step = y.commitment.step) : x.commitment = y.commitment :=
  honce _ _ (hunforged x hx hverify peer hpeer) (hunforged y hy hverify' peer hpeer)
    (StepCertificate.sessionId_eq hverify) (StepCertificate.sessionId_eq hverify') hstep

theorem Unforged.commitment_of_certificate {artifact : ReceiptArtifact κ}
    (hsession : artifact.body.binding.sessionId = b.sessionId)
    (hkeys : artifact.body.binding.sortedKeys = b.sortedKeys)
    (hcirculating : ∀ x ∈ artifact.body.certificates, x ∈ circulating) {x : StepCertificate}
    (hx : x ∈ circulating) (hverify : x.verify b = .ok ()) {c : StepCommitment}
    (hc : artifact.body.commitments[x.commitment.step.toNat]? = some c) : c = x.commitment := by
  obtain ⟨cursor, hcertified, -⟩ := artifact.certified
  obtain ⟨entry, hentry, hmem, hcommitment⟩ := ReceiptBody.mem_certificates hc
  have hverified := hcertified.verify hentry
  rw [← hcommitment, StepCertificate.verify_congr hsession hkeys] at hverified
  refine hunforged.commitment_eq hpeer honce (hcirculating _ hmem) hx hverified hverify ?_
  exact UInt64.toNat_inj.1 (hcertified.step_commitment hc)

end

/-! ## Comparing traces -/

theorem prefix_or_prefix {α : Type} {l l' : List α}
    (h : ∀ (n : ℕ) (x y : α), l[n]? = some x → l'[n]? = some y → x = y) : l <+: l' ∨ l' <+: l := by
  have hle : ∀ n, n < l.length → n < l'.length → l[n]? = l'[n]? := by
    intro n hn hn'
    have hx := List.getElem?_eq_getElem hn
    have hy := List.getElem?_eq_getElem hn'
    rw [hx, hy, h n _ _ hx hy]
  rcases le_total l.length l'.length with hlength | hlength
  · refine .inl (List.prefix_iff_getElem?.2 fun n hn => ?_)
    rw [← hle n hn (by omega), List.getElem?_eq_getElem hn]
  · refine .inr (List.prefix_iff_getElem?.2 fun n hn => ?_)
    rw [hle n (by omega) hn, List.getElem?_eq_getElem hn]

theorem prefix_of_terminal {l l' : List TraceEntry} {entry : TraceEntry}
    (hcomparable : l <+: l' ∨ l' <+: l) (hlast : l.getLast? = some entry)
    (hterminal : entry.isTerminal = true) (hopen : ∀ e ∈ l'.dropLast, e.isTerminal = false) :
    l' <+: l := by
  rcases hcomparable with ⟨rest, rfl⟩ | hle
  · rcases List.eq_nil_or_concat' rest with rfl | ⟨front, last, rfl⟩
    · simp
    · have hmem : entry ∈ (l ++ (front ++ [last])).dropLast := by
        rw [← List.append_assoc, List.dropLast_concat]
        exact List.mem_append_left _ (List.mem_of_getLast? hlast)
      rw [hopen entry hmem] at hterminal
      cases hterminal
  · exact hle

@[simp] theorem TraceEntry.isTerminal_normalized (e : TraceEntry) :
    e.normalized.isTerminal = e.isTerminal := rfl

namespace ReceiptArtifact

variable {a a' : ReceiptArtifact κ}

theorem isTerminal_dropLast_sharedTrace (a : ReceiptArtifact κ) :
    ∀ e ∈ a.body.sharedTrace.dropLast, e.isTerminal = false := by
  obtain ⟨cursor, hcertified, -⟩ := a.certified
  rw [ReceiptBody.sharedTrace, ← List.map_dropLast]
  intro e he
  obtain ⟨entry, hentry, rfl⟩ := List.mem_map.1 he
  exact hcertified.isTerminal_dropLast entry hentry

theorem getLast?_of_completed (h : a.body.header.terminal = .completed) :
    ∃ entry, a.body.sharedTrace.getLast? = some entry ∧
      entry.terminal = some (.end a.body.outcome) := by
  obtain ⟨cursor, -, hends⟩ := a.certified
  rw [h] at hends
  obtain ⟨entry, hlast, hterminal⟩ := hends
  refine ⟨entry.normalized, ?_, hterminal⟩
  rw [ReceiptBody.sharedTrace, List.getLast?_map, hlast]
  rfl

theorem eq_of_completed
    (hcomparable : a.body.sharedTrace <+: a'.body.sharedTrace ∨
      a'.body.sharedTrace <+: a.body.sharedTrace)
    (h : a.body.header.terminal = .completed) (h' : a'.body.header.terminal = .completed) :
    a.body.sharedTrace = a'.body.sharedTrace ∧ a.body.outcome = a'.body.outcome := by
  obtain ⟨entry, hlast, hterminal⟩ := getLast?_of_completed h
  obtain ⟨entry', hlast', hterminal'⟩ := getLast?_of_completed h'
  have hle := prefix_of_terminal hcomparable hlast (by simp [TraceEntry.isTerminal, hterminal])
    a'.isTerminal_dropLast_sharedTrace
  have hge := prefix_of_terminal hcomparable.symm hlast'
    (by simp [TraceEntry.isTerminal, hterminal']) a.isTerminal_dropLast_sharedTrace
  have heq := hge.eq_of_length_le hle.length_le
  refine ⟨heq, ?_⟩
  rw [heq, hlast', Option.some.injEq] at hlast
  subst hlast
  exact (StepTerminal.end.inj (Option.some.inj (hterminal'.symm.trans hterminal))).symm

theorem prefix_of_stopped {cause : StopCause}
    (hcomparable : a.body.sharedTrace <+: a'.body.sharedTrace ∨
      a'.body.sharedTrace <+: a.body.sharedTrace)
    (h : a.body.header.terminal = .completed) (h' : a'.body.header.terminal = .stopped cause) :
    a'.body.sharedTrace <+: a.body.sharedTrace ∧
      a'.body.sharedTrace.length < a.body.sharedTrace.length := by
  obtain ⟨entry, hlast, hterminal⟩ := getLast?_of_completed h
  have hle := prefix_of_terminal hcomparable hlast (by simp [TraceEntry.isTerminal, hterminal])
    a'.isTerminal_dropLast_sharedTrace
  refine ⟨hle, lt_of_le_of_ne hle.length_le fun hlength => ?_⟩
  -- with the same length the stop would end with the terminal entry of the completion
  have heq := hle.eq_of_length hlength
  rw [← heq, ReceiptBody.sharedTrace, List.getLast?_map, Option.map_eq_some_iff] at hlast
  obtain ⟨last, hlast, rfl⟩ := hlast
  obtain ⟨cursor, -, hends⟩ := a'.certified
  rw [h'] at hends
  cases cause with
  | authenticated occurrence =>
    have hopen := hends last (List.mem_of_getLast? hlast)
    have hclosed : last.isTerminal = true := by
      rw [← TraceEntry.isTerminal_normalized]
      simp [TraceEntry.isTerminal, hterminal]
    rw [hopen] at hclosed
    cases hclosed
  | shared kind commitment reason =>
    obtain ⟨final, hfinal, hstop⟩ := hends
    obtain rfl := Option.some.inj (hlast.symm.trans hfinal)
    have hsame := Option.some.inj (hstop.symm.trans hterminal)
    cases kind <;> cases hsame

end ReceiptArtifact

/-! ## Two artifacts of one session -/

section

variable {a a' : ReceiptArtifact κ}
  (hsession : a.body.header.sessionHash = a'.body.header.sessionHash)
  (hcollision : Set.InjOn κ.blake3 (a.body.preimages ∪ a'.body.preimages))

include hsession hcollision

theorem ReceiptArtifact.session_terms :
    a.body.header.activation.offer = a'.body.header.activation.offer ∧
      a.body.header.activation.tickets.map (·.data) =
        a'.body.header.activation.tickets.map (·.data) ∧
      a'.body.binding.sortedKeys = a.body.binding.sortedKeys := by
  have hdata := PreparedActivation.activationData_eq_of_sessionHash hcollision
    (fun _ h => .inl (.inl h)) (fun _ h => .inr (.inl h)) hsession
  have hoffer := PreparedActivation.offer_eq_of_activationData hcollision
    (fun _ h => .inl (.inl h)) (fun _ h => .inr (.inl h)) hdata
  have htickets := PreparedActivation.ticketData_eq_of_activationData hcollision
    (fun _ h => .inl (.inl h)) (fun _ h => .inr (.inl h)) hdata
  exact ⟨hoffer, htickets, ExecutionBinding.sortedKeys_eq_of_ticketData htickets.symm⟩

variable {signs : PeerId → StepCommitment → Prop} {circulating : Set StepCertificate}
  {peer : PeerId} (hunforged : Unforged a.body.binding signs circulating)
  (hcirculating : ∀ x ∈ a.body.certificates ++ a'.body.certificates, x ∈ circulating)
  (hpeer : a.body.binding.isParticipant peer = true)
  (honce : SignsOnce signs a.body.binding.sessionId peer)

include hunforged hcirculating hpeer honce

/-- Both artifacts hold what a verified certificate certifies. -/
theorem ReceiptArtifact.commitment_of_circulating :
    ∀ artifact ∈ [a, a'], ∀ x ∈ circulating, x.verify a.body.binding = .ok () →
      ∀ c, artifact.body.commitments[x.commitment.step.toNat]? = some c → c = x.commitment := by
  intro artifact hartifact x hx hverify c hc
  obtain ⟨-, -, hkeys⟩ := session_terms hsession hcollision
  rcases List.mem_pair.1 hartifact with rfl | rfl
  · exact hunforged.commitment_of_certificate hpeer honce rfl rfl
      (fun y hy => hcirculating y (List.mem_append_left _ hy)) hx hverify hc
  · exact hunforged.commitment_of_certificate hpeer honce hsession.symm hkeys
      (fun y hy => hcirculating y (List.mem_append_right _ hy)) hx hverify hc

theorem ReceiptArtifact.commitments_agree (n : ℕ) (c d : StepCommitment)
    (hc : a.body.commitments[n]? = some c) (hd : a'.body.commitments[n]? = some d) : c = d := by
  obtain ⟨cursor, hcertified, -⟩ := a.certified
  obtain ⟨entry, hentry, hmem, rfl⟩ := ReceiptBody.mem_certificates hc
  have hn := hcertified.step_commitment hc
  refine (commitment_of_circulating hsession hcollision hunforged hcirculating hpeer honce a'
    (by simp) _ (hcirculating _ (List.mem_append_left _ hmem)) (hcertified.verify hentry) d ?_).symm
  rw [hn]
  exact hd

theorem ReceiptArtifact.sharedTraces_comparable :
    a.body.sharedTrace <+: a'.body.sharedTrace ∨ a'.body.sharedTrace <+: a.body.sharedTrace := by
  obtain ⟨cursor, hcertified, -⟩ := a.certified
  obtain ⟨cursor', hcertified', -⟩ := a'.certified
  refine prefix_or_prefix fun n x y hx hy => ?_
  rw [ReceiptBody.sharedTrace, List.getElem?_map, Option.map_eq_some_iff] at hx hy
  obtain ⟨e, he, rfl⟩ := hx
  obtain ⟨f, hf, rfl⟩ := hy
  refine hcertified.normalized_eq hcertified' hcollision ?_ he hf
    (commitments_agree hsession hcollision hunforged hcirculating hpeer honce n)
  intro z hz
  rcases List.mem_append.1 hz with hz | hz
  · exact .inl (.inr ⟨z, hz, rfl⟩)
  · exact .inr (.inr ⟨z, hz, rfl⟩)

end

/-- Receipts are unambiguous: when one participant signs at most one commitment for a step, no
verified certificate in circulation is forged and no hash collides, any two accepted artifacts of a
session name the same terms and participants; completed receipts have the same trace and outcome; a
stop is a proper part of a completion; all traces agree on their common steps; and an accepted
artifact holds, step by step, exactly what is certified. -/
theorem receipts_unambiguous {a a' : ReceiptArtifact κ}
    (hsession : a.body.header.sessionHash = a'.body.header.sessionHash)
    (hcollision : Set.InjOn κ.blake3 (a.body.preimages ∪ a'.body.preimages))
    {signs : PeerId → StepCommitment → Prop} {circulating : Set StepCertificate}
    (hunforged : Unforged a.body.binding signs circulating)
    (hcirculating : ∀ x ∈ a.body.certificates ++ a'.body.certificates, x ∈ circulating)
    (hhonest : ∃ peer, a.body.binding.isParticipant peer = true ∧
      SignsOnce signs a.body.binding.sessionId peer) :
    (a.body.header.activation.offer = a'.body.header.activation.offer ∧
      a.body.header.activation.tickets.map (·.data) =
        a'.body.header.activation.tickets.map (·.data)) ∧
    (a.body.header.terminal = .completed → a'.body.header.terminal = .completed →
      a.body.sharedTrace = a'.body.sharedTrace ∧ a.body.outcome = a'.body.outcome) ∧
    (∀ cause, a.body.header.terminal = .completed → a'.body.header.terminal = .stopped cause →
      a'.body.sharedTrace <+: a.body.sharedTrace ∧
        a'.body.sharedTrace.length < a.body.sharedTrace.length) ∧
    (a.body.sharedTrace <+: a'.body.sharedTrace ∨ a'.body.sharedTrace <+: a.body.sharedTrace) ∧
    ∀ artifact ∈ [a, a'],
      artifact.body.trace.map (·.step.toNat) = List.range' 0 artifact.body.trace.length ∧
      ∀ x ∈ circulating, x.verify a.body.binding = .ok () →
        x.commitment.step.toNat < artifact.body.trace.length →
        artifact.body.commitments[x.commitment.step.toNat]? = some x.commitment := by
  obtain ⟨peer, hpeer, honce⟩ := hhonest
  obtain ⟨hoffer, htickets, -⟩ := ReceiptArtifact.session_terms hsession hcollision
  have hcommitment := ReceiptArtifact.commitment_of_circulating hsession hcollision hunforged
    hcirculating hpeer honce
  have hcomparable := ReceiptArtifact.sharedTraces_comparable hsession hcollision hunforged
    hcirculating hpeer honce
  refine ⟨⟨hoffer, htickets⟩, ReceiptArtifact.eq_of_completed hcomparable,
    fun cause => ReceiptArtifact.prefix_of_stopped hcomparable, hcomparable, ?_⟩
  intro artifact hartifact
  obtain ⟨_, htrace, -⟩ := artifact.certified
  refine ⟨htrace.map_step, fun x hx hverify hlt => ?_⟩
  have hlt' : x.commitment.step.toNat < artifact.body.commitments.length := by
    rw [ReceiptBody.commitments, length_traceCommitments]
    exact hlt
  have hc := List.getElem?_eq_getElem hlt'
  rw [hc, hcommitment artifact hartifact x hx hverify _ hc]

namespace Sample

/-- The byte strings hashed into a body of the reference session. -/
def hashedBytes (trace : List TraceEntry) : List Bytes :=
  activationData.signingBytes :: offerData.signingBytes ::
    (tickets.map fun t => t.data.signingBytes) ++
      trace.map fun e => TraceEntry.codec.encode e.normalized

theorem preimages_subset {body : ReceiptBody referencePrimitives}
    (h : body.header.activation = activation) :
    ∀ bytes ∈ body.preimages, bytes ∈ hashedBytes body.trace := by
  unfold ReceiptBody.preimages hashedBytes
  rw [h]
  rintro bytes ((rfl | rfl | ⟨t, ht, rfl⟩) | ⟨e, he, rfl⟩)
  · exact List.mem_append_left _ List.mem_cons_self
  · exact List.mem_append_left _ (List.mem_cons_of_mem _ List.mem_cons_self)
  · exact List.mem_append_left _ (List.mem_cons_of_mem _ (List.mem_cons_of_mem _
      (List.mem_map_of_mem ht)))
  · exact List.mem_append_right _ (List.mem_map_of_mem he)

/-- What the ended and the stopped run of the reference session publish. -/
def bothReports : Except StoreError
    (ReceiptArtifact referencePrimitives × ReceiptArtifact referencePrimitives) := do
  return (← endedHost.db.assembleReceipt endedHost.db.state,
    ← stoppedHost.db.assembleReceipt stoppedHost.db.state)

end Sample

open Sample in
/-- A stop report of the reference session is a proper part of its completed receipt. -/
theorem receipts_unambiguous_stopped : ∃ a a' : ReceiptArtifact referencePrimitives,
    endedHost.db.assembleReceipt endedHost.db.state = .ok a ∧
      stoppedHost.db.assembleReceipt stoppedHost.db.state = .ok a' ∧
      a'.body.trace.length = 1 ∧ a'.body.sharedTrace <+: a.body.sharedTrace ∧
      a'.body.sharedTrace.length < a.body.sharedTrace.length := by
  obtain ⟨⟨a, a'⟩, hreports, hactivation, hactivation', hcompleted, hstopped, hlength, hdistinct,
      hcirculating, hsteps, hpeer⟩ : ∃ p, bothReports = .ok p ∧
      p.1.body.header.activation = activation ∧ p.2.body.header.activation = activation ∧
      p.1.body.header.terminal = .completed ∧ p.2.body.header.terminal ≠ .completed ∧
      p.2.body.trace.length = 1 ∧
      (∀ x ∈ hashedBytes p.1.body.trace ++ hashedBytes p.2.body.trace,
        ∀ y ∈ hashedBytes p.1.body.trace ++ hashedBytes p.2.body.trace,
          referencePrimitives.blake3 x = referencePrimitives.blake3 y → x = y) ∧
      (∀ x ∈ p.1.body.certificates ++ p.2.body.certificates,
        x.commitment ∈ p.1.body.commitments) ∧
      (∀ c ∈ p.1.body.commitments, ∀ d ∈ p.1.body.commitments, c.step = d.step → c = d) ∧
      p.1.body.binding.isParticipant (peer 1) = true := exists_ok_of_any (by decide +kernel)
  simp only [bothReports, bind_eq_ok, pure_eq_ok, Prod.mk.injEq] at hreports
  obtain ⟨a, hassemble, a', hassemble', rfl, rfl⟩ := hreports
  obtain ⟨cause, hcause⟩ : ∃ cause, a'.body.header.terminal = .stopped cause := by
    cases hterminal : a'.body.header.terminal with
    | completed => exact absurd hterminal hstopped
    | stopped cause => exact ⟨cause, rfl⟩
  have hbytes : ∀ bytes ∈ a.body.preimages ∪ a'.body.preimages,
      bytes ∈ hashedBytes a.body.trace ++ hashedBytes a'.body.trace := by
    rintro bytes (h | h)
    · exact List.mem_append_left _ (preimages_subset hactivation bytes h)
    · exact List.mem_append_right _ (preimages_subset hactivation' bytes h)
  -- the commitments of the receipt are all that was signed
  have hunforged : Unforged a.body.binding (fun _ c => c ∈ a.body.commitments)
      { x | x.commitment ∈ a.body.commitments } := fun x hx _ _ _ => hx
  have hall := receipts_unambiguous
    (by rw [SessionHeader.sessionHash, SessionHeader.sessionHash, hactivation, hactivation'])
    (fun x hx y hy => hdistinct x (hbytes x hx) y (hbytes y hy)) hunforged hcirculating
    ⟨peer 1, hpeer, fun c d hc hd _ _ => hsteps c hc d hd⟩
  exact ⟨a, a', hassemble, hassemble', hlength, hall.2.2.1 cause hcompleted hcause⟩

end Arena0
