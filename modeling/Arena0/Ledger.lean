import Arena0.Progress
import Arena0.Transaction

/-!
# The ledger of a host

The stored rows of an execution hold exactly its certified trace: every row reads
back as its entry, the entries are certified up to the cursor of the aggregate,
and the running byte count is the size of their encodings.  Every transaction of
a committed decision keeps this.
-/

namespace Arena0

open Borsh Fallible Actor ExecutionState

variable {κ : Primitives}

namespace Db

/-! ## What a transaction writes -/

/-- What a transaction writes: the aggregate, and rows that depend on the change. -/
inductive Written (db : Db κ) (next : ExecutionState κ) : Change κ → Db κ → Prop
  | rows {change : Change κ} (events : List EventRow) (timers : List TimerRow)
      (receipts : List (ReceiptArtifact κ)) (production : Option ReceiptId)
      (hchange : ∀ proposal, change ≠ .stepSignature (some proposal)) :
      Written db next change { db with
        state := next, events := db.events ++ events, timers, receipts, production }
  | certified {proposal : SharedProposal κ} {nowMs : UInt64} (timers : List TimerRow)
      (hevent : ∃ row ∈ db.events, row.eventPosition = proposal.eventPosition) :
      Written db next (.stepSignature (some proposal)) { db with
        state := next
        agreedSteps := db.agreedSteps ++ [certifiedRow proposal next.version nowMs]
        timers }

variable {db db' : Db κ} {next : ExecutionState κ} {change : Change κ}

theorem Written.state (h : Written db next change db') : db'.state = next := by
  cases h <;> rfl

theorem Wrote.written {nowMs : UInt64} (h : Wrote db next nowMs change db') :
    Written db next change db' := by
  cases h with
  | aggregate hchange =>
    have hrows : Written db next change { db with state := next, events := db.events ++ [] } :=
      .rows [] db.timers db.receipts db.production (by rcases hchange with rfl | rfl <;> simp)
    rwa [List.append_nil] at hrows
  | dispatch timers hfits htimers => exact .rows [_] timers db.receipts db.production (by simp)
  | certified timers hevent htimers => exact .certified timers hevent
  | @published artifact receipts hcodec hstores =>
    have hrows : Written db next (.publish artifact) { db with
        state := next, events := db.events ++ [], receipts,
        production := some artifact.receiptId } :=
      .rows [] db.timers receipts (some artifact.receiptId) (by simp)
    rwa [List.append_nil] at hrows

theorem persistInTransaction_eq_ok {expected : UInt64} {nowMs : UInt64}
    (h : db.persistInTransaction expected next change nowMs = .ok db') :
    next.version.toNat < 2 ^ 63 ∧ Written db next change db' := by
  obtain ⟨haccepts, hwrote⟩ := persistInTransaction_wrote h
  exact ⟨haccepts.version, hwrote.written⟩

/-! ## The ledger -/

structure RowOf (κ : Primitives) (events : List EventRow) (version : UInt64) (row : AgreedRow)
    (entry : TraceEntry) : Prop where
  step : row.step = entry.step
  artifact : row.artifact = TraceEntry.codec.encode entry
  entryHash : row.entryHash = entry.entryHash κ
  postState : row.postState = entry.postState
  version_ne : row.version ≠ 0
  version_le : row.version ≤ version
  origin : ∃ event ∈ events, event.eventPosition = row.originEventPosition

theorem RowOf.mono {events events' : List EventRow} {version version' : UInt64} {row : AgreedRow}
    {entry : TraceEntry} (h : RowOf κ events version row entry) (hevents : events ⊆ events')
    (hversion : version ≤ version') : RowOf κ events' version' row entry := by
  obtain ⟨event, hmem, heq⟩ := h.origin
  exact ⟨h.step, h.artifact, h.entryHash, h.postState, h.version_ne,
    UInt64.le_trans h.version_le hversion, event, hevents hmem, heq⟩

/-- How a status follows from the trace: a running or unilaterally stopped execution has no
terminal entry, any other status is the one of the last entry. -/
inductive Concluded (b : ExecutionBinding κ) (entries : List TraceEntry) :
    ExecutionStatus κ → Prop
  | running {status : ExecutionStatus κ} (hstatus : status.isTerminal = false ∨
      ∃ occurrence, status = .stopped (.authenticated occurrence))
      (hopen : ∀ e ∈ entries, e.isTerminal = false) : Concluded b entries status
  | terminal {status : ExecutionStatus κ} {front : List TraceEntry} {entry : TraceEntry}
      (hentries : entries = front ++ [entry]) (hterminal : entry.isTerminal = true)
      (hstatus : ExecutionStatus.validateProposalStatus entry
        (.forEntry κ b.sessionId entry (traceLink κ b.sessionId chainStart front)) status = .ok ()) :
      Concluded b entries status

variable {entries : List TraceEntry}

theorem Concluded.open_of_running {b : ExecutionBinding κ} {status : ExecutionStatus κ}
    (h : Concluded b entries status) (hrunning : status.isTerminal = false) :
    ∀ e ∈ entries, e.isTerminal = false := by
  cases h with
  | running hstatus hopen => exact hopen
  | terminal hentries hterminal hstatus =>
    have heq := (ExecutionStatus.validateProposalStatus_terminal hstatus).1
    rw [hrunning, hterminal] at heq
    cases heq

/-- The rows hold the certified trace of the aggregate. -/
structure Ledger (db : Db κ) (entries : List TraceEntry) : Prop where
  rows : List.Forall₂ (RowOf κ db.events db.state.version) db.agreedSteps entries
  certified : CertifiedTrace db.state.binding entries db.state.stepCursor
  bytes : (TraceEntry.codec.encodeAll entries).length = db.state.traceBytes
  concluded : Concluded db.state.binding entries db.state.status.unpublished
  lastCertificate : db.state.lastCertificate.map (·.commitment) =
    (traceCommitments κ db.state.binding.sessionId chainStart entries).getLast?

structure SameTrace (s t : ExecutionState κ) : Prop where
  cursor : t.stepCursor = s.stepCursor
  bytes : t.traceBytes = s.traceBytes
  lastCertificate : t.lastCertificate = s.lastCertificate

private theorem Ledger.keep (h : db.Ledger entries) (hsame : SameExecution db.state next)
    (htrace : SameTrace db.state next)
    (hconcluded : Concluded db.state.binding entries next.status.unpublished)
    (hchange : ∀ proposal, change ≠ .stepSignature (some proposal))
    (hwritten : Written db next change db') : db'.Ledger entries := by
  cases hwritten with
  | rows events timers receipts production _ =>
    have hversion : db.state.version ≤ next.version := UInt64.le_iff_toNat_le.2 hsame.version
    refine ⟨?_, ?_, ?_, ?_, ?_⟩
    · exact h.rows.imp fun row entry hrow => hrow.mono (List.subset_append_left _ _) hversion
    · simpa only [hsame.binding, htrace.cursor] using h.certified
    · simpa only [htrace.bytes] using h.bytes
    · simpa only [hsame.binding] using hconcluded
    · simpa only [hsame.binding, htrace.lastCertificate] using h.lastCertificate
  | certified timers hevent => exact absurd rfl (hchange _)

theorem Ledger.certify {proposal : SharedProposal κ} {certificate : StepCertificate}
    (h : db.Ledger entries) (hrunning : db.state.status.isTerminal = false)
    (hcertifies : Certifies db.state next proposal certificate)
    (hwritten : Written db next (.stepSignature (some (proposal.under certificate))) db') :
    db'.Ledger (entries ++ [(proposal.under certificate).entry]) := by
  obtain ⟨hvalid, hcommitment, hverify, cursor, traceBytes, version, hadvance, hbudget, hversion,
    rfl⟩ := hcertifies
  have hopen := h.concluded.open_of_running (by simpa using hrunning)
  have hstaged := (validateProposal_eq_ok.1 hvalid).1
  simp only [StepCertificate.verify, ExecutionBinding.participantBlsKeys_eq_ok, ok_bind,
    bind_eq_ok, ensure_eq_ok] at hverify
  obtain ⟨_, -, hagreed⟩ := hverify
  rw [hcommitment] at hagreed hadvance
  have hsigners := length_signers_of_verify hagreed
  simp only [List.length_map, ExecutionBinding.length_sortedKeys] at hsigners
  have hbytes := SignerSet.byteLength_le db.state.binding.length_le
  have hentry : validateSharedEntry db.state.binding db.state.stepCursor.nextStep
      (proposal.under certificate).entry = .ok () :=
    validateSharedEntry_agreement (hsigners ▸ hbytes) hstaged.entry_valid
  have hlink : db.state.agreedLink =
      traceLink κ db.state.binding.sessionId chainStart entries := h.certified.chainHash_eq
  obtain ⟨bytes, hlength, rfl, -, -⟩ := checkReceiptBudget_eq_ok hbudget
  have hsize : (TraceEntry.codec.encode (proposal.under certificate).entry).length = bytes :=
    certifiedLength_eq hlength hsigners
  have hnumber := checkedAdd_eq_some hversion
  cases hwritten with
  | rows _ _ _ _ hchange => exact absurd rfl (hchange _)
  | certified timers hevent =>
    have hle : db.state.version ≤ version := UInt64.le_iff_toNat_le.2 (by omega)
    refine ⟨?_, ?_, ?_, ?_, ?_⟩
    · refine List.rel_append (h.rows.imp fun row entry hrow => hrow.mono (List.Subset.refl _) hle)
        (.cons ⟨rfl, rfl, rfl, rfl, ?_, UInt64.le_refl _, hevent⟩ .nil)
      intro hzero
      have hzero' : version = 0 := hzero
      simp [hzero'] at hnumber
    · exact .snoc h.certified hopen hentry hadvance hagreed
    · simp only [Codec.encodeAll_append, Codec.encodeAll_cons, Codec.encodeAll_nil,
        List.append_nil, List.length_append, h.bytes, hsize]
      rfl
    · have hstatus := hstaged.status_valid
      have hunpublished : proposal.status.unpublished = proposal.status := by
        have hnone := ExecutionStatus.publishedReceiptId_of_proposal hstatus
        cases hp : proposal.status <;> simp_all [ExecutionStatus.publishedReceiptId,
          ExecutionStatus.unpublished]
      have hnext : ({ db.state.certified proposal certificate cursor
          (db.state.traceBytes + bytes) with version := version } : ExecutionState κ).status =
          proposal.status := rfl
      rw [hnext, hunpublished]
      cases hterminal : proposal.entry.isTerminal with
      | false =>
        have heq := (ExecutionStatus.validateProposalStatus_terminal hstatus).1
        refine .running (.inl (heq.trans hterminal)) fun e he => ?_
        rcases List.mem_append.1 he with he | he
        · exact hopen e he
        · obtain rfl := List.mem_singleton.1 he
          exact hterminal
      | true =>
        refine .terminal rfl hterminal ?_
        rw [SharedProposal.commitmentAt] at hstatus
        have hchain : db.state.stepCursor.chainHash =
            traceLink κ db.state.binding.sessionId chainStart entries := hlink
        rw [hchain] at hstatus
        exact hstatus
    · rw [traceCommitments_append]
      simp only [traceCommitments, List.getLast?_append, List.getLast?_singleton, Option.some_or]
      refine congrArg some (hcommitment.trans ?_)
      rw [commitmentFor, hlink]
      rfl

/-- What a committed decision does to the ledger. -/
inductive Extends (s t : ExecutionState κ) (change : Change κ) (entries : List TraceEntry) :
    List TraceEntry → Prop
  | same (htrace : SameTrace s t) (hchange : ∀ proposal, change ≠ .stepSignature (some proposal)) :
      Extends s t change entries entries
  | certified {proposal : SharedProposal κ} {certificate : StepCertificate}
      (hcertifies : Certifies s t proposal certificate)
      (hchange : change = .stepSignature (some (proposal.under certificate))) :
      Extends s t change entries (entries ++ [(proposal.under certificate).entry])

theorem Ledger.committed {keys : HostKeys} {input : Input} (h : db.Ledger entries)
    (hrec : db.state.Recoverable) (hcommitted : Committed keys db db.state input next change)
    (hwritten : Written db next change db') :
    ∃ entries', db'.Ledger entries' ∧ Extends db.state next change entries entries' := by
  have hsame := hcommitted.sameExecution
  cases hcommitted.progress with
  | quiet _ hcursor hbytes hcertificate hproposal hstatus hchange =>
    have htrace : SameTrace db.state next := ⟨hcursor, hbytes, hcertificate⟩
    refine ⟨entries, h.keep hsame htrace ?_ (fun p => hchange (some p)) hwritten,
      .same htrace fun p => hchange (some p)⟩
    rcases hstatus with hstatus | ⟨hactivating, hactive⟩
    · rw [hstatus]
      exact h.concluded
    · rw [hactive]
      refine .running (.inl rfl) (h.concluded.open_of_running ?_)
      rw [hactivating]
      rfl
  | staged _ hnone hactive hstaged ht =>
    subst ht
    exact ⟨entries, h.keep hsame ⟨rfl, rfl, rfl⟩ h.concluded (by simp) hwritten,
      .same ⟨rfl, rfl, rfl⟩ (by simp)⟩
  | signed _ hproposal hadd ht =>
    subst ht
    exact ⟨entries, h.keep hsame ⟨rfl, rfl, rfl⟩ h.concluded (by simp) hwritten,
      .same ⟨rfl, rfl, rfl⟩ (by simp)⟩
  | completed _ hproposal hadd hcomplete hcertifies =>
    exact ⟨_, h.certify (hrec.running hproposal) hcertifies hwritten, .certified hcertifies rfl⟩
  | certified _ hproposal hcertifies =>
    exact ⟨_, h.certify (hrec.running hproposal) hcertifies hwritten, .certified hcertifies rfl⟩
  | stopped _ _ hstop | aborted _ hstop =>
    obtain ⟨-, -, -, -, hopen, -, v, -, rfl⟩ := stop_eq_ok hstop
    refine ⟨entries, h.keep hsame ⟨rfl, rfl, rfl⟩ ?_ (by simp) hwritten, .same ⟨rfl, rfl, rfl⟩ (by simp)⟩
    exact .running (.inr ⟨_, rfl⟩) (h.concluded.open_of_running (by simpa using hopen))

/-! ## Reading the trace back -/

theorem Ledger.length_eq (h : db.Ledger entries) :
    entries.length = db.state.agreedStep.toNat := h.certified.nextStep_toNat.symm

theorem readAgreedRow_eq_ok {state : ExecutionState κ} {row : AgreedRow} {entry : TraceEntry}
    {index : ℕ} (hrow : RowOf κ db.events state.version row entry)
    (hvalid : validateTraceEntry entry = .ok ()) (hindex : entry.step.toNat = index) :
    db.readAgreedRow state index row = .ok entry := by
  obtain ⟨hversion, hfits, hlen⟩ := validateTraceEntry_eq_ok.1 hvalid
  have hread := TraceEntry.codec.fromSlice_encode (TraceEntry.codec_valid hversion hfits)
  simp only [readAgreedRow, bind_eq_ok, ensure_eq_ok, okOr_eq_ok, pure_eq_ok]
  refine ⟨(), ?_, (), hrow.origin, (), ⟨hrow.version_ne, hrow.version_le⟩, (), ?_, entry, ?_, (),
    ⟨hrow.step.symm, hrow.entryHash.symm, hrow.postState.symm⟩, rfl⟩
  · rw [hrow.step]
    exact hindex
  · rw [hrow.artifact]
    exact hlen
  · rw [hrow.artifact]
    exact hread

theorem readAgreedRows_eq_ok {state : ExecutionState κ} {rows : List AgreedRow}
    (index traceBytes : ℕ) (hrows : List.Forall₂ (RowOf κ db.events state.version) rows entries)
    (hvalid : ∀ entry ∈ entries, validateTraceEntry entry = .ok ())
    (hindex : entries.map (·.step.toNat) = List.range' index entries.length) :
    db.readAgreedRows state index traceBytes rows =
      .ok (entries, traceBytes + (TraceEntry.codec.encodeAll entries).length) := by
  induction hrows generalizing index traceBytes with
  | nil => rfl
  | @cons row entry rows entries hrow hrows ih =>
    simp only [List.map_cons, List.length_cons, List.range'_succ, List.cons.injEq] at hindex
    have hentry := hvalid entry (by simp)
    have hread := readAgreedRow_eq_ok hrow hentry hindex.1
    have hrest := ih (index + 1) (traceBytes + (TraceEntry.codec.encode entry).length)
      (fun e he => hvalid e (by simp [he])) hindex.2
    have hvec : encodeBorsh TraceEntry.codec entry "trace size" =
        .ok (TraceEntry.codec.encode entry) :=
      okOr_eq_ok.2 ((TraceEntry.codec.toVec_eq_some_iff entry _).2
        ⟨(validateTraceEntry_eq_ok.1 hentry).2.1, rfl⟩)
    simp only [readAgreedRows, hread, hvec, hrest, ok_bind, pure_eq_ok]
    simp [Nat.add_assoc]

theorem map_step_of_rows {events : List EventRow} {version : UInt64} {rows : List AgreedRow}
    (h : List.Forall₂ (RowOf κ events version) rows entries) :
    rows.map (·.step.toNat) = entries.map (·.step.toNat) := by
  induction h with
  | nil => rfl
  | cons hrow hrows ih => simp [hrow.step, ih]

theorem Ledger.map_step (h : db.Ledger entries) :
    entries.map (·.step.toNat) = List.range' 0 entries.length := h.certified.map_step

theorem Ledger.loadAgreedTrace_eq_ok (h : db.Ledger entries) :
    db.loadAgreedTrace db.state = .ok entries := by
  have hsteps := h.map_step
  have hrowSteps := (map_step_of_rows h.rows).trans hsteps
  have hsorted : db.agreedSteps.Pairwise fun x y => x.step ≤ y.step := by
    have hlt := List.pairwise_lt_range' (s := 0) (n := entries.length) 1
    rw [← hrowSteps, List.pairwise_map] at hlt
    exact hlt.imp fun hxy => UInt64.le_iff_toNat_le.2 (le_of_lt hxy)
  have hread := readAgreedRows_eq_ok 0 0 h.rows (fun _ he => h.certified.entry_valid he) hsteps
  have hbytes := h.bytes
  simp only [loadAgreedTrace, hsorted.insertionSort_eq, hread, bind_eq_ok, ensure_eq_ok, pure_eq_ok]
  exact ⟨_, rfl, (), ⟨h.length_eq, by simpa using hbytes⟩, rfl⟩

/-- The assembled receipt holds the trace of the ledger and the conclusion of the status. -/
theorem Ledger.assembleReceipt_eq_ok {artifact : ReceiptArtifact κ} (h : db.Ledger entries)
    (hassemble : db.assembleReceipt db.state = .ok artifact) :
    ∃ termination, receiptTermination db.state.status = .ok termination ∧
      artifact.body = ⟨⟨db.activation, termination⟩,
        ((terminalOutcome db.state.status).map (·.borsh)).getD [],
        db.activation.offer.data.params.bytes, entries⟩ := by
  simp only [assembleReceipt, assembleTerminalArtifact, h.loadAgreedTrace_eq_ok, ok_bind,
    bind_eq_ok, mapError_eq_ok, ReceiptBody.new, pure_eq_ok] at hassemble
  obtain ⟨_, -, termination, htermination, _, ⟨_, -, _, -, _, -, _, -, rfl⟩, hnew⟩ := hassemble
  refine ⟨termination, htermination, ?_⟩
  unfold ReceiptArtifact.new at hnew
  split at hnew
  · cases hnew
    rfl
  · cases hnew

end Db

end Arena0
