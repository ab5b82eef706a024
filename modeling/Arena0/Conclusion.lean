import Arena0.Catchup

/-!
# Conclusions agree

When all participants run this code, the terminal evidence of any two of them
is the same: both hold the certificate of the one terminal entry, or both stopped
at the same cursor.  The frames of a participant never contradict what another one
has staged, and the handshake waits for exactly the participants that have not
confirmed yet.
-/

namespace Arena0

open Borsh Fallible Actor ExecutionState

variable {κ : Primitives}

/-! ## Frames that contradict nothing -/

/-- A decision does not report a violated delivery invariant. -/
def Decision.Consistent {α : Type} (decision : Decision κ α) : Prop :=
  ∀ message, decision ≠ .fail (.deliveryInvariant message)

variable {α : Type} {frame : ExecFrame} {commitment : StepCommitment}

private theorem Decision.consistent_done (result : α) :
    (.done result : Decision κ α).Consistent := by
  intro message h
  cases h

private theorem Decision.consistent_commit (next : ExecutionState κ) (change : Change κ)
    (result : α) : (.commit next change result : Decision κ α).Consistent := by
  intro message h
  cases h

theorem Decision.Consistent.map {β : Type} {decision : Decision κ α} (h : decision.Consistent)
    (f : α → β) : (decision.map f).Consistent := by
  intro message heq
  cases decision with
  | fail error => exact h message (congrArg Decision.fail (Decision.fail.inj heq))
  | _ => cases heq

private theorem Decision.consistent_ofProtocol (error : ProtocolError) :
    (.fail (.ofProtocol error) : Decision κ α).Consistent := by
  intro message heq
  have h := Decision.fail.inj heq
  unfold ExecError.ofProtocol at h
  split at h <;> cases h

theorem terminalOutcome_error {effects : List Effect} {projection : Except String (Bytes × Bytes)}
    {message : String} :
    terminalOutcome κ effects projection ≠ .error (.deliveryInvariant message) := by
  intro h
  unfold terminalOutcome at h
  split at h
  · cases h
  rename_i outcome _
  cases projection with
  | error text => cases h
  | ok pair =>
    simp only [Except.mapError, ok_bind] at h
    by_cases hborsh : pair.1 = outcome
    · rw [ensure, if_pos hborsh, ok_bind] at h
      cases hnew : TerminalOutcome.new κ pair.1 pair.2 with
      | ok value =>
        rw [hnew] at h
        cases h
      | error error =>
        rw [hnew] at h
        have herror := Except.error.inj h
        unfold ExecError.ofProtocol at herror
        split at herror <;> cases herror
    · rw [ensure, if_neg hborsh] at h
      cases h

section Dispatch

variable {s : ExecutionState κ} {reply : GuestReply}

private theorem consistent_commitDispatch {next : ExecutionState κ} {event : Event}
    {source : DispatchSource} {effects : List Effect} :
    (commitDispatch s next event source effects).Consistent := by
  unfold commitDispatch
  split
  · split
    · split
      · exact Decision.consistent_commit _ _ _
      · exact fun message h => (nomatch h)
    · exact fun message h => (nomatch h)
  · split
    · exact Decision.consistent_commit _ _ _
    · exact Decision.consistent_ofProtocol _
  all_goals exact Decision.consistent_commit _ _ _

private theorem consistent_dispatchEvent {event : Event} {source : DispatchSource} :
    (dispatchEvent s event source reply).Consistent := by
  unfold dispatchEvent
  split
  · exact fun message h => (nomatch h)
  split
  · exact Decision.consistent_done _
  unfold dispatchInner
  split
  · split
    · exact Decision.consistent_done _
    · exact fun message h => (nomatch h)
  · exact Decision.consistent_done _
  · split
    · rename_i error herror
      intro message h
      cases h
      exact terminalOutcome_error herror
    split
    · unfold refusedDispatch
      split <;> exact fun message h => (nomatch h)
    · exact consistent_commitDispatch
  · exact fun message h => (nomatch h)

variable {source : PeerId}

private theorem consistent_applyMessage {data : Bytes} :
    (applyMessage s source commitment data reply).Consistent := by
  unfold applyMessage
  split
  · exact fun message h => (nomatch h)
  · exact consistent_dispatchEvent.map _

private theorem consistent_dispatchDirect {seq : UInt64} {msg : Bytes} {attachment : Option Bytes} :
    (dispatchDirect s source seq msg attachment reply).Consistent := by
  unfold dispatchDirect
  split
  · split
    · exact Decision.consistent_commit _ _ _
    · exact Decision.consistent_ofProtocol _
  · exact consistent_dispatchEvent

private theorem consistent_acceptTerminal : (acceptTerminal s source frame).Consistent := by
  unfold acceptTerminal
  split
  · refine Decision.Consistent.map ?_ _
    unfold confirmPeer
    split
    · exact Decision.consistent_commit _ _ _
    · exact Decision.consistent_done _
    · exact Decision.consistent_ofProtocol _
  · exact Decision.consistent_done _
  · exact Decision.consistent_done _

private theorem consistent_acceptMessage {data : Bytes} :
    (acceptMessage s source commitment data reply).Consistent := by
  unfold acceptMessage
  split
  · exact Decision.consistent_done _
  split
  · exact Decision.consistent_done _
  split
  · exact Decision.consistent_done _
  split
  · split <;> exact Decision.consistent_done _
  · exact consistent_applyMessage.map _

private theorem consistent_acceptStepSignature {signature : BlsSignature} :
    (acceptStepSignature s source commitment signature).Consistent := by
  unfold acceptStepSignature
  split
  · exact Decision.consistent_done _
  split
  · exact Decision.consistent_done _
  split
  · exact Decision.consistent_done _
  split
  · exact Decision.consistent_done _
  dsimp only
  split
  · exact Decision.consistent_done _
  split
  · exact Decision.consistent_commit _ _ _
  · exact Decision.consistent_done _

private theorem consistent_acceptDirect {seq : UInt64} {msg : Bytes} {attachment : Option Bytes} :
    (acceptDirect s source seq msg attachment reply).Consistent := by
  unfold acceptDirect
  split
  · exact Decision.consistent_done _
  split
  · exact Decision.consistent_done _
  · exact Decision.consistent_done _
  split
  · exact Decision.consistent_done _
  · exact consistent_dispatchDirect.map _

private theorem consistent_acceptAbort {occurrence : AbortOccurrence} :
    (acceptAbort s occurrence).Consistent := by
  unfold acceptAbort
  split
  · exact Decision.consistent_done _
  split
  · exact Decision.consistent_done _
  split
  · exact Decision.consistent_commit _ _ _
  all_goals exact Decision.consistent_done _

private theorem consistent_acceptFrame
    (hcertificate : ∀ certificate, frame = .stepCertificate certificate →
      certificate.verify s.binding = .ok () → s.status.isTerminal = false →
        (acceptStepCertificate s certificate).Consistent) :
    (acceptFrame s source frame reply).Consistent := by
  unfold acceptFrame
  split
  · exact Decision.consistent_done _
  rename_i hauth
  split
  · exact consistent_acceptTerminal
  rename_i hrunning
  cases frame with
  | message commitment data => exact consistent_acceptMessage
  | stepSignature commitment signature => exact consistent_acceptStepSignature
  | stepCertificate certificate =>
    refine hcertificate certificate rfl ?_ (by simpa using hrunning)
    cases hverify : certificate.verify s.binding with
    | ok _ => rfl
    | error error => simp [authenticates, hverify, Except.isOk, Except.toBool] at hauth
  | direct seq msg attachment => exact consistent_acceptDirect
  | abort occurrence => exact consistent_acceptAbort

end Dispatch

/-! ## Authentic evidence -/

theorem ExecutionState.Recoverable.stopped_authentic {s : ExecutionState κ} (h : s.Recoverable)
    {occurrence : AbortOccurrence}
    (hcause : s.status.terminalCause = some (.authenticated occurrence)) :
    occurrence.sessionId = s.binding.sessionId ∧ occurrence.verifySignature κ = .ok true := by
  have hstatus := h.status
  rw [ExecutionStatus.unpublished_of_terminalCause hcause] at hstatus
  simp only [ExecutionStatus.validateBinding, StopCause.validateBinding, bind_eq_ok, ensure_eq_ok,
    mapError_eq_ok] at hstatus
  obtain ⟨_, -, _, ⟨hsession, -⟩, valid, hverify, rfl⟩ := hstatus
  exact ⟨hsession, hverify⟩

theorem ExecutionState.terminalEvidence_certified {s : ExecutionState κ}
    (hterminal : s.status.isTerminal = true)
    (hcause : ∀ occurrence, s.status.terminalCause ≠ some (.authenticated occurrence)) :
    s.terminalEvidence = s.lastCertificate.map .stepCertificate := by
  rw [terminalEvidence, if_pos hterminal]
  split
  · rename_i occurrence h
    exact absurd h (hcause occurrence)
  · rfl

namespace Session

variable {parties : Parties} {activation : Activation κ} {sys : Session κ} {i j : PeerId}

theorem Sound.authenticates_evidence (hs : sys.Sound parties activation)
    (hi : i ∈ parties.correct) (hj : j ∈ parties.correct)
    (hevidence : (sys.host j).db.state.terminalEvidence = some frame) :
    authenticates (sys.host i).db.state j frame = true := by
  have hp := hs.party j hj
  have hbinding : (sys.host i).db.state.binding = (sys.host j).db.state.binding := by
    rw [(hs.party i hi).binding, hp.binding]
  have hsource : (sys.host i).db.state.binding.isParticipant j = true := by
    rw [(hs.party i hi).binding]
    exact hs.isParticipant hj
  unfold terminalEvidence at hevidence
  split at hevidence
  · split at hevidence
    · rename_i occurrence hcause
      cases hevidence
      obtain ⟨hsession, hverify⟩ := hp.sound.recoverable.stopped_authentic hcause
      obtain ⟨hsender, -, -⟩ := hp.sound.recoverable.stopped hcause
      rw [← hbinding] at hsession hsender
      simp [authenticates, hsource, hsession, hsender, hverify, Except.toOption]
    · obtain ⟨certificate, hcertificate, rfl⟩ := Option.map_eq_some_iff.1 hevidence
      obtain ⟨-, hverify⟩ := hp.sound.recoverable.lastCertificate hcertificate
      rw [← hbinding] at hverify
      simp [authenticates, hsource, hverify, Except.isOk, Except.toBool]
  · cases hevidence

private theorem Sound.consistent_certificate (hs : sys.Sound parties activation)
    (hi : i ∈ parties.correct)
    {certificate : StepCertificate} (hsigned : sys.SignedByAll parties certificate.commitment)
    (hverify : certificate.verify (sys.host i).db.state.binding = .ok ())
    (hrunning : (sys.host i).db.state.status.isTerminal = false) :
    (acceptStepCertificate (sys.host i).db.state certificate).Consistent := by
  have hp := hs.party i hi
  unfold acceptStepCertificate
  split
  · exact Decision.consistent_done _
  rename_i hstale
  split
  · exact Decision.consistent_done _
  have hstaged : (sys.host i).db.state.proposalCommitment = some certificate.commitment := by
    cases (hs.histories hi).1.pledged _ (hsigned i hi) with
    | agreed h => exact absurd (UInt64.lt_iff_toNat_lt.2 h) hstale
    | staged hproposal _ hc =>
      rw [proposalCommitment, hproposal]
      exact congrArg some hc
    | stopped _ hcause =>
      rw [isTerminal_of_terminalCause hcause] at hrunning
      cases hrunning
  obtain ⟨next, certified, hcertify⟩ :=
    hp.sound.recoverable.exists_certifyStep hp.sound.version hstaged hverify
  rw [if_neg (by simp [hstaged]), hcertify]
  exact Decision.consistent_commit _ _ _

/-- No frame that a party has sent violates the delivery invariant of a party. -/
private theorem Sound.consistent (hs : sys.Sound parties activation) {packet : Packet}
    (hpacket : packet ∈ sys.packets) (hi : i ∈ parties.correct) (reply : GuestReply) :
    (acceptFrame (sys.host i).db.state packet.source packet.frame reply).Consistent := by
  refine consistent_acceptFrame ?_
  intro certificate hframe hverify hrunning
  have hjustified := (hs.packets packet hpacket).2
  rw [hframe] at hjustified
  exact hs.consistent_certificate hi hjustified hverify hrunning

/-! ## Equal conclusions -/

/-- How a terminal party has concluded its trace. -/
inductive Conclusion (status : ExecutionStatus κ) (entries : List TraceEntry) : Prop
  | stopped {occurrence : AbortOccurrence}
      (hcause : status.terminalCause = some (.authenticated occurrence))
      (hopen : ∀ e ∈ entries, e.isTerminal = false)
  | certified {front : List TraceEntry} {entry : TraceEntry} (hentries : entries = front ++ [entry])
      (hterminal : entry.isTerminal = true)
      (hcause : ∀ occurrence, status.terminalCause ≠ some (.authenticated occurrence))

theorem Traced.conclusion {entries : List TraceEntry}
    (ht : Traced parties activation sys (sys.host i) entries)
    (hterminal : (sys.host i).db.state.status.isTerminal = true) :
    Conclusion (sys.host i).db.state.status entries := by
  cases ht.ledger.concluded with
  | running hstatus hopen =>
    rcases hstatus with hrunning | ⟨occurrence, hstopped⟩
    · rw [ExecutionStatus.isTerminal_unpublished, hterminal] at hrunning
      cases hrunning
    · have hcause : (sys.host i).db.state.status.terminalCause =
          some (.authenticated occurrence) := by
        rw [← ExecutionStatus.terminalCause_unpublished, hstopped]
        rfl
      exact .stopped hcause hopen
  | terminal hentries hentry hstatus =>
    refine .certified hentries hentry fun occurrence => ?_
    rw [← ExecutionStatus.terminalCause_unpublished]
    exact (ExecutionStatus.validateProposalStatus_terminal hstatus).2 occurrence

/-- The entries that the parties have certified, as they are hashed. -/
def entryBytes (parties : Parties) (sys : Session κ) : Set Bytes :=
  {bytes | ∃ i ∈ parties.correct, ∃ entries,
    (sys.host i).db.loadAgreedTrace (sys.host i).db.state = .ok entries ∧
      ∃ e ∈ entries, bytes = TraceEntry.codec.encode e.normalized}

section Pair

variable {entries entries' : List TraceEntry} (hs : sys.Sound parties activation)
  (hcollision : Set.InjOn κ.blake3 (sys.entryBytes parties))
  (hi : i ∈ parties.correct) (hj : j ∈ parties.correct)
  (ht : Traced parties activation sys (sys.host i) entries)
  (ht' : Traced parties activation sys (sys.host j) entries')

include hs hcollision hi hj ht ht'

theorem Sound.isTerminal_agree {n : ℕ} {e f : TraceEntry} (he : entries[n]? = some e)
    (hf : entries'[n]? = some f) : e.isTerminal = f.isTerminal := by
  have hinj : Set.InjOn κ.blake3
      {bytes | ∃ e ∈ entries ++ entries', bytes = TraceEntry.codec.encode e.normalized} := by
    refine hcollision.mono ?_
    rintro bytes ⟨e, he, rfl⟩
    rcases List.mem_append.1 he with he | he
    · exact ⟨i, hi, entries, ht.ledger.loadAgreedTrace_eq_ok, e, he, rfl⟩
    · exact ⟨j, hj, entries', ht'.ledger.loadAgreedTrace_eq_ok, e, he, rfl⟩
  have hnormal := hs.entries_agree hi ht ht' hinj n e f he hf
  have hterminal : e.normalized.terminal = f.normalized.terminal :=
    congrArg TraceEntry.terminal hnormal
  exact congrArg Option.isSome hterminal

/-- No trace goes on after the terminal entry of another one. -/
theorem Sound.length_le_of_terminal {front : List TraceEntry} {entry : TraceEntry}
    (hentries : entries' = front ++ [entry]) (hterminal : entry.isTerminal = true) :
    entries.length ≤ entries'.length := by
  by_contra hlt
  have hlength : entries'.length = front.length + 1 := by simp [hentries]
  have hn : front.length < entries.dropLast.length := by
    rw [List.length_dropLast]
    omega
  have hopen := ht.certified.isTerminal_dropLast _ (List.getElem_mem hn)
  have he : entries[front.length]? = some entries.dropLast[front.length] := by
    rw [List.getElem_dropLast]
    exact List.getElem?_eq_getElem _
  have hf : entries'[front.length]? = some entry := by simp [hentries]
  rw [hs.isTerminal_agree hcollision hi hj ht ht' he hf, hterminal] at hopen
  cases hopen

theorem Sound.length_lt_of_open {front : List TraceEntry} {entry : TraceEntry}
    (hopen : ∀ e ∈ entries, e.isTerminal = false) (hentries : entries' = front ++ [entry])
    (hterminal : entry.isTerminal = true) : entries.length < entries'.length := by
  by_contra hle
  have hlength : entries'.length = front.length + 1 := by simp [hentries]
  have hn : front.length < entries.length := by omega
  have he := List.getElem?_eq_getElem hn
  have hf : entries'[front.length]? = some entry := by simp [hentries]
  have hfalse := hopen _ (List.getElem_mem hn)
  rw [hs.isTerminal_agree hcollision hi hj ht ht' he hf, hterminal] at hfalse
  cases hfalse

end Pair

theorem Sound.same_conclusion (hs : sys.Sound parties activation)
    (hall : ∀ k, (⟨activation⟩ : ExecutionBinding κ).isParticipant k = true → k ∈ parties.correct)
    (hcollision : Set.InjOn κ.blake3 (sys.entryBytes parties)) (hi : i ∈ parties.correct)
    (hj : j ∈ parties.correct) (hterminal : (sys.host i).db.state.status.isTerminal = true)
    (hevidence : (sys.host j).db.state.terminalEvidence = some frame) :
    (sys.host i).db.state.endConclusionMatches frame = .same := by
  have hterminal' : (sys.host j).db.state.status.isTerminal = true := by
    by_contra hrunning
    rw [terminalEvidence, if_neg hrunning] at hevidence
    cases hevidence
  obtain ⟨entries, ht⟩ := hs.traced hi
  obtain ⟨entries', ht'⟩ := hs.traced hj
  have hlength := ht.length
  have hlength' := ht'.length
  cases ht.conclusion hterminal with
  | @stopped occurrence hcause hopen =>
    have hle := hs.agreedStep_le hall hi hj hcause
    cases ht'.conclusion hterminal' with
    | @stopped occurrence' hcause' hopen' =>
      -- both stopped, so neither has certified more than the other and the cursors are equal
      have hle' := hs.agreedStep_le hall hj hi hcause'
      have hcursor := ht.certified.cursor_eq ht'.certified (by omega)
        (hs.commitments_agree hi ht ht')
      obtain ⟨-, hcoordinate, -⟩ := (hs.party j hj).sound.recoverable.stopped hcause'
      simp only [terminalEvidence, hterminal', ↓reduceIte, hcause', Option.some.injEq] at hevidence
      simp [← hevidence, endConclusionMatches, terminalEvidence, hterminal, hcause, hcoordinate,
        hcursor]
    | certified hentries hentry _ =>
      have hlt := hs.length_lt_of_open hcollision hi hj ht ht' hopen hentries hentry
      omega
  | certified hentries hentry hcause =>
    cases ht'.conclusion hterminal' with
    | stopped hcause' hopen' =>
      have hle := hs.agreedStep_le hall hj hi hcause'
      have hlt := hs.length_lt_of_open hcollision hj hi ht' ht hopen' hentries hentry
      omega
    | certified hentries' hentry' hcause' =>
      have hle := hs.length_le_of_terminal hcollision hi hj ht ht' hentries' hentry'
      have hle' := hs.length_le_of_terminal hcollision hj hi ht' ht hentries hentry
      have hcommitments := traceCommitments_eq_of_getElem? (le_antisymm hle hle')
        (hs.commitments_agree hi ht ht')
      have hlast : (sys.host i).db.state.lastCertificate.map (·.commitment) =
          (sys.host j).db.state.lastCertificate.map (·.commitment) := by
        rw [ht.ledger.lastCertificate, ht'.ledger.lastCertificate, (hs.party i hi).binding,
          (hs.party j hj).binding]
        exact congrArg List.getLast? hcommitments
      rw [terminalEvidence_certified hterminal' hcause'] at hevidence
      obtain ⟨certificate', hcertificate', rfl⟩ := Option.map_eq_some_iff.1 hevidence
      rw [hcertificate', Option.map_some] at hlast
      obtain ⟨certificate, hcertificate, heq⟩ := Option.map_eq_some_iff.1 hlast
      simp [endConclusionMatches, terminalEvidence_certified hterminal hcause, hcertificate, heq]

/-! ## The handshake of a run -/

theorem Reachable.handshaken (hr : sys.Reachable parties activation) (hi : i ∈ parties.correct) :
    (sys.host i).Handshaken := by
  obtain ⟨start, actions, hinitial, rfl⟩ := hr
  refine hinitial.sound.run_host hi ?_ (fun hs hh ht => ht.handshaken hs hh) actions
  obtain ⟨db, hcreated, -, hhost⟩ := hinitial.created i hi
  rw [hhost]
  have hrunning : (Host.initial db).db.state.status.isTerminal = false := by
    rw [show (Host.initial db).db.state.status = .activating from hcreated.fresh.2.1]
    rfl
  refine ⟨fun _ => rfl, ?_⟩
  intro unconfirmed hunconfirmed
  rw [(hcreated.sound.recoverable.unconfirmed hunconfirmed).1] at hrunning
  cases hrunning

theorem Sound.run_evidence (hs : sys.Sound parties activation) (hi : i ∈ parties.correct)
    (hevidence : (sys.host i).db.state.terminalEvidence = some frame)
    (actions : List Action) :
    ((sys.run parties actions).host i).db.state.terminalEvidence = some frame := by
  refine hs.run_host (P := fun h => h.db.state.terminalEvidence = some frame) hi hevidence ?_ actions
  intro h h' input hsound hbefore ht
  have hterminal : h.db.state.status.isTerminal = true := by
    by_contra hrunning
    rw [terminalEvidence, if_neg hrunning] at hbefore
    cases hbefore
  rw [((ht.advances hsound).terminal hterminal).2.2]
  exact hbefore

theorem Sound.run_unconfirmed (hs : sys.Sound parties activation) (hi : i ∈ parties.correct)
    {unconfirmed : Finset PeerId}
    (hbefore : (sys.host i).db.state.endPhase.unconfirmed = some unconfirmed)
    (actions : List Action) : ∃ later ⊆ unconfirmed,
      ((sys.run parties actions).host i).db.state.endPhase.unconfirmed = some later := by
  refine hs.run_host (P := fun h => ∃ later ⊆ unconfirmed,
    h.db.state.endPhase.unconfirmed = some later) hi ⟨_, Finset.Subset.refl _, hbefore⟩ ?_ actions
  rintro h h' input hsound ⟨later, hsub, hlater⟩ ht
  obtain ⟨last, hlast, hsub'⟩ := ht.unconfirmed hsound hlater
  exact ⟨last, hsub'.trans hsub, hlast⟩

end Session

/-- Honest conclusions agree: the terminal evidence of a participant is authentic and the same
conclusion for every terminal participant, then and ever after; no frame of a participant violates
the delivery invariant of another one; and a participant waits for exactly the others that have not
confirmed yet, never for more than before, from its conclusion on. -/
theorem honest_conclusions_agree {parties : Parties} {activation : Activation κ} {sys : Session κ}
    (hall : ∀ k, (⟨activation⟩ : ExecutionBinding κ).isParticipant k = true → k ∈ parties.correct)
    (hr : sys.Reachable parties activation)
    (hcollision : Set.InjOn κ.blake3 (sys.entryBytes parties)) :
    (∀ i ∈ parties.correct, ∀ j ∈ parties.correct,
      (sys.host i).db.state.status.isTerminal = true → ∀ frame,
        (sys.host j).db.state.terminalEvidence = some frame →
          authenticates (sys.host i).db.state j frame = true ∧
            (sys.host i).db.state.endConclusionMatches frame = .same) ∧
    (∀ j ∈ parties.correct, ∀ frame, (sys.host j).db.state.terminalEvidence = some frame →
      ∀ actions, ((sys.run parties actions).host j).db.state.terminalEvidence = some frame) ∧
    (∀ packet ∈ sys.packets, ∀ i ∈ parties.correct, ∀ reply message,
      acceptFrame (sys.host i).db.state packet.source packet.frame reply ≠
        .fail (.deliveryInvariant message)) ∧
    (∀ i ∈ parties.correct,
      ((sys.host i).db.state.endPhase = .open ↔ (sys.host i).db.state.status.isTerminal = false) ∧
      (∀ unconfirmed, (sys.host i).db.state.endPhase.unconfirmed = some unconfirmed →
        unconfirmed = (sys.host i).db.state.others \ (sys.host i).confirmed.toFinset ∧
        ∀ actions, ∃ later ⊆ unconfirmed,
          ((sys.run parties actions).host i).db.state.endPhase.unconfirmed = some later) ∧
      (∀ nowMs input peer, (sys.host i).live = some (sys.host i).db.state →
        input.confirms (sys.host i).db.state = some peer →
        ((sys.host i).handle (parties.keys i) nowMs input).2 ≠ none → ∃ unconfirmed,
          ((sys.host i).handle (parties.keys i) nowMs input).1.db.state.endPhase.unconfirmed
            = some unconfirmed ∧ peer ∉ unconfirmed)) := by
  have hs := hr.sound
  refine ⟨?_, ?_, ?_, ?_⟩
  · intro i hi j hj hterminal frame hevidence
    exact ⟨hs.authenticates_evidence hi hj hevidence,
      hs.same_conclusion hall hcollision hi hj hterminal hevidence⟩
  · exact fun j hj frame hevidence actions => hs.run_evidence hj hevidence actions
  · exact fun packet hpacket i hi reply => hs.consistent hpacket hi reply
  · intro i hi
    have hrecoverable := (hs.party i hi).sound.recoverable
    refine ⟨⟨?_, hrecoverable.endPhase_eq_open⟩, ?_, ?_⟩
    · intro hopen
      by_contra hterminal
      exact hrecoverable.endPhase_ne_open (by simpa using hterminal) hopen
    · intro unconfirmed hunconfirmed
      exact ⟨(hr.handshaken hi).unconfirmed unconfirmed hunconfirmed,
        hs.run_unconfirmed hi hunconfirmed⟩
    · intro nowMs input peer hlive hconfirms hanswer
      exact Host.handle_confirms hlive hconfirms hanswer

namespace Sample

/-- Both participants of the reference session stop by themselves after its certified start. -/
def bothStopped : Session referencePrimitives :=
  session.run parties (signStart 1 ++ signStart 2 ++
    [sendStart 1 2, sendStart 2 1, deliverStart 1 2, deliverStart 2 1,
      .input (peer 1) 0 (.stop .abort 0 "done"), .input (peer 2) 0 (.stop .fail 7 "broken")])

def startEntryBytes : Bytes :=
  match (bothStopped.host (peer 1)).db.loadAgreedTrace (bothStopped.host (peer 1)).db.state with
  | .ok (entry :: _) => TraceEntry.codec.encode entry.normalized
  | _ => []

theorem injOn_bothStopped :
    Set.InjOn referencePrimitives.blake3 (bothStopped.entryBytes parties) := by
  have hsame : ∀ i ∈ parties.correct,
      (match (bothStopped.host i).db.loadAgreedTrace (bothStopped.host i).db.state with
        | .ok entries => entries.all fun e => TraceEntry.codec.encode e.normalized = startEntryBytes
        | .error _ => true) = true := by decide +kernel
  have hone : ∀ bytes ∈ bothStopped.entryBytes parties, bytes = startEntryBytes := by
    rintro bytes ⟨i, hi, entries, hload, e, he, rfl⟩
    have hall := hsame i hi
    rw [hload] at hall
    exact of_decide_eq_true (List.all_eq_true.1 hall e he)
  intro a ha b hb _
  rw [hone a ha, hone b hb]

end Sample

open Sample in
theorem honest_conclusions_agree_stopped :
    ∃ frame, (bothStopped.host (peer 2)).db.state.terminalEvidence = some frame ∧
      (bothStopped.host (peer 1)).db.state.terminalEvidence ≠ some frame ∧
      (bothStopped.host (peer 1)).db.state.endConclusionMatches frame = .same := by
  have hrun : (bothStopped.host (peer 1)).db.state.status.isTerminal = true ∧
      (bothStopped.host (peer 2)).db.state.terminalEvidence ≠ none ∧
      (bothStopped.host (peer 1)).db.state.terminalEvidence ≠
        (bothStopped.host (peer 2)).db.state.terminalEvidence := by decide +kernel
  obtain ⟨hterminal, hsome, hne⟩ := hrun
  obtain ⟨frame, hframe⟩ := Option.ne_none_iff_exists'.1 hsome
  have hr : bothStopped.Reachable parties activation :=
    ⟨_, _, initial_session, rfl⟩
  have hagree := honest_conclusions_agree mem_parties hr injOn_bothStopped
  exact ⟨frame, hframe, hframe ▸ hne, (hagree.1 (peer 1) (by decide) (peer 2)
    (by decide) hterminal frame hframe).2⟩

end Arena0
