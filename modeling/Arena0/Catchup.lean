import Arena0.StepAgreement
import Arena0.Acknowledgement
import Arena0.Handshake
import Arena0.StoreInvariant
import Arena0.TimerCommit

/-!
# Nobody is left behind

A participant that has certified a step leads its peers by at most that step, and its
frames let a peer that still has the step staged certify it too, if the peer's store
takes the timers of the step.  A unilateral stop right after a certification breaks
this: the terminal evidence is then the stop alone, and the certificate is not sent
any more.
-/

namespace Arena0

open Borsh Fallible Actor ExecutionState

variable {κ : Primitives}

/-! ## Certifying on a certificate -/

variable {s : ExecutionState κ} {certificate : StepCertificate} {input : Input} {frame : ExecFrame}
  {source : PeerId}

theorem ExecutionState.Recoverable.exists_certifyStep (hs : s.Recoverable)
    (hversion : s.version.toNat < 2 ^ 63)
    (hstaged : s.proposalCommitment = some certificate.commitment)
    (hverify : certificate.verify s.binding = .ok ()) :
    ∃ t certified, s.certifyStep certificate = .ok (t, certified) := by
  obtain ⟨proposal, hproposal, hcommitment⟩ := Option.map_eq_some_iff.1 hstaged
  have hrec := hs.proposal proposal hproposal
  obtain ⟨next, hadvance, -⟩ := (validateProposal_eq_ok.1 hrec.valid).1.advances
  obtain ⟨bytes, hbudget⟩ := hrec.budget
  have hnext : checkedAdd s.version 1 = some (s.version + 1) := checkedAdd_one (by omega)
  have hadvance' : s.stepCursor.advance κ certificate.commitment = .ok next := hcommitment ▸ hadvance
  simp only [ExecutionState.certifyStep, installCertified, hproposal, bind_eq_ok, okOr_eq_ok,
    ensure_eq_ok, pure_eq_ok, bumpVersion_eq_ok, Prod.exists]
  exact ⟨_, _, _, _, ⟨proposal, rfl, (), hrec.valid, (), hcommitment.symm, (), hverify, next,
    hadvance', bytes, hbudget, bytes, hbudget, rfl⟩, _, ⟨_, hnext, rfl⟩, rfl⟩

theorem acceptFrame_certificate {t : ExecutionState κ} {certified : SharedProposal κ}
    (hs : s.Recoverable) (hsource : s.binding.isParticipant source = true)
    (hcertify : s.certifyStep certificate = .ok (t, certified)) (reply : GuestReply) :
    acceptFrame s source (.stepCertificate certificate) reply =
      .commit t (.stepSignature (some certified)) none := by
  obtain ⟨proposal, hproposal, hcertifies, -⟩ := Certifies.exists_of_certifyStep hcertify
  have hstep := hcertifies.step_eq
  have hstaged : s.proposalCommitment = some certificate.commitment := by
    rw [proposalCommitment, hproposal, hcertifies.commitment]
    rfl
  simp [acceptFrame, authenticates, hsource, hcertifies.verify, Except.isOk, Except.toBool,
    hs.running hproposal, acceptStepCertificate, hstep, hproposal, hstaged, hcertify]

/-- The store takes the staged step at this clock: its timers fit, under ids of their own. -/
structure Db.Takes (db : Db κ) (nowMs : UInt64) (proposal : SharedProposal κ) : Prop where
  clock : nowMs.toNat < 2 ^ 63
  version : db.state.version.toNat + 1 < 2 ^ 63
  timers : TimersFit db.timers.length nowMs proposal.effects
  ids : ((db.timers ++ (timerArmings κ db.state.executionId proposal.eventPosition
    (db.state.version + 1) nowMs proposal.effects).map Prod.snd).map TimerRow.timerId).Nodup

theorem Db.Filed.exists_event {db : Db κ} {proposal : SharedProposal κ} (h : db.Filed)
    (hproposal : db.state.ProposalRecoverable proposal) :
    ∃ row ∈ db.events, row.eventPosition = proposal.eventPosition := by
  have hnext := checkedAdd_eq_some hproposal.position
  have hmem : proposal.eventPosition.toNat ∈ db.events.map (·.eventPosition.toNat) := by
    rw [h.positions, List.mem_range, hnext]
    exact Nat.lt_succ_self _
  obtain ⟨row, hrow, heq⟩ := List.mem_map.1 hmem
  exact ⟨row, hrow, UInt64.toNat_inj.1 heq⟩

private theorem Db.Ledger.step_ne {db : Db κ} {entries : List TraceEntry} {rows : List AgreedRow}
    {row : AgreedRow} (h : db.Ledger entries) (hrows : db.agreedSteps = rows ++ [row]) :
    ∀ old ∈ rows, old.step ≠ row.step := by
  have hsteps := (map_step_of_rows h.rows).trans h.map_step
  have hnodup := hsteps ▸ List.nodup_range' 1
  rw [hrows, List.map_append, List.nodup_append] at hnodup
  exact fun old hold heq => hnodup.2.2 _ (List.mem_map_of_mem hold) _ (List.mem_singleton_self _)
    (congrArg UInt64.toNat heq)

/-- The transaction of a certified step goes through: its event is recorded, its entry is
encodable, its step is new, and its timers fit. -/
theorem Db.Takes.persists {db : Db κ} {t : ExecutionState κ} {nowMs : UInt64}
    {proposal : SharedProposal κ} {entries : List TraceEntry} (h : db.Takes nowMs proposal)
    (hfiled : db.Filed) (hledger : db.Ledger entries) (hrec : db.state.Recoverable)
    (hproposal : db.state.proposal = some proposal) (haccepts : db.Accepts t)
    (hcertifies : Certifies db.state t proposal certificate) :
    ∃ db', db.persistInTransaction db.state.version t
      (.stepSignature (some (proposal.under certificate))) nowMs = .ok db' := by
  have hstaged := hrec.proposal proposal hproposal
  have hevent := hfiled.exists_event hstaged
  have hwritten : db.Written t (.stepSignature (some (proposal.under certificate))) { db with
      state := t
      agreedSteps := db.agreedSteps ++
        [certifiedRow (proposal.under certificate) t.version nowMs] } :=
    .certified db.timers hevent
  have hnext := hledger.certify (hrec.running hproposal) hcertifies hwritten
  have hfits := (validateTraceEntry_eq_ok.1
    (hnext.certified.entry_valid (List.mem_append_right _ (List.mem_singleton_self _)))).2.1
  have hstep : (proposal.under certificate).entry.step = db.state.agreedStep :=
    hrec.step_proposal hproposal
  have hnew : ∀ row ∈ db.agreedSteps, row.step ≠ (proposal.under certificate).entry.step :=
    hnext.step_ne rfl
  have hposition : proposal.eventPosition.toNat < 2 ^ 63 :=
    (Nat.le_of_succ_le (checkedAdd_eq_some hstaged.position).ge).trans_lt hfiled.position_lt
  have hids : ((db.timers ++ (timerArmings κ t.executionId proposal.eventPosition t.version nowMs
      proposal.effects).map Prod.snd).map TimerRow.timerId).Nodup := by
    obtain ⟨-, -, -, _, _, version, -, -, hversion, rfl⟩ := hcertifies
    obtain rfl := Option.some.inj (hversion.symm.trans (checkedAdd_one (by have := h.version; omega)))
    exact h.ids
  rw [haccepts.persistInTransaction (Nat.lt_of_succ_lt h.version) h.clock]
  have hcommit : ∀ {db'}, ({ db with
      state := t
      agreedSteps := db.agreedSteps ++
        [certifiedRow (proposal.under certificate) t.version nowMs] } : Db κ).persistEffects
      proposal.eventPosition t.version nowMs proposal.effects = .ok db' →
      persistChange { db with state := t } t (.stepSignature (some (proposal.under certificate)))
        nowMs = .ok db' := by
    intro db' heffects
    simp only [persistChange, commitStagedEvent, insertAgreedStep, encodeBorsh, sqliteU64,
      bind_eq_ok, ensure_eq_ok, okOr_eq_ok, Codec.toVec_eq_some_iff, pure_eq_ok]
    exact ⟨(), hposition, (), hevent, _, ⟨_, ⟨hfits, rfl⟩, (),
      hstep ▸ hrec.step_le.trans_lt (by decide), (), hposition, (), haccepts.version, (), h.clock,
      (), hnew, rfl⟩, heffects⟩
  refine Exists.imp (fun _ => hcommit)
    ((persistEffects_isOk_iff haccepts.version hstaged.effects_fit ?_ hids).2 h.timers)
  exact (Nat.le_add_right _ _).trans h.timers.1

/-- A running host commits the staged step on its certificate if its store takes it. -/
private theorem Host.Sound.certifies {keys : HostKeys} {h : Host κ} {nowMs : UInt64}
    {proposal : SharedProposal κ} (hs : h.Sound keys) (hfiled : h.db.Filed)
    (hlive : h.live = some h.db.state) (hsource : h.db.state.binding.isParticipant source = true)
    (hproposal : h.db.state.proposal = some proposal)
    (hcommitment : h.db.state.commitmentFor proposal = certificate.commitment)
    (hverify : certificate.verify h.db.state.binding = .ok ())
    (htakes : h.db.Takes nowMs proposal) (reply : GuestReply) :
    ∃ h', h.handle keys nowMs (.receive source (.stepCertificate certificate) reply) =
        (h', some none) ∧ h'.db.state.agreedStep.toNat = h.db.state.agreedStep.toNat + 1 := by
  have hstaged : h.db.state.proposalCommitment = some certificate.commitment := by
    rw [proposalCommitment, hproposal, ← hcommitment]
    rfl
  obtain ⟨t, certified, hcertify⟩ :=
    hs.recoverable.exists_certifyStep hs.version hstaged hverify
  have hcommitted : Committed keys h.db h.db.state
      (.receive source (.stepCertificate certificate) reply) t (.stepSignature (some certified)) :=
    .certificate hcertify
  have hdecide := acceptFrame_certificate hs.recoverable hsource hcertify reply
  obtain ⟨_, hp, hcertifies, rfl⟩ := Certifies.exists_of_certifyStep hcertify
  obtain rfl := Option.some.inj (hproposal.symm.trans hp)
  obtain ⟨bytes, hencode⟩ := hfiled.encoded
  have hversion : t.version.toNat < 2 ^ 63 := by
    obtain ⟨-, -, -, _, _, version, -, -, hversion, rfl⟩ := hcertifies
    exact (checkedAdd_eq_some hversion).trans_lt htakes.version
  have haccepts := hfiled.accepts hcommitted.sameExecution (hcommitted.recoverable hs.recoverable)
    ((calloutsBounded_of_encode hencode).certifyStep hcertify) hversion hcertifies.installs.2.2.2.2
  obtain ⟨entries, hledger⟩ := hs.ledger
  obtain ⟨db, hpersist⟩ :=
    htakes.persists hfiled hledger hs.recoverable hproposal haccepts hcertifies
  refine ⟨h.record (.receive source (.stepCertificate certificate) reply) t db, ?_, ?_⟩
  · rw [handle_receive hlive, hdecide, perform, hpersist]
    rfl
  · show db.state.agreedStep.toNat = _
    rw [(Db.persistInTransaction_eq_ok hpersist).2.state]
    exact hcertifies.agreedStep.1

theorem ExecutionState.Recoverable.lastCertificate (hs : s.Recoverable)
    (h : s.lastCertificate = some certificate) :
    certificate.commitment.step.toNat + 1 = s.agreedStep.toNat ∧
      certificate.verify s.binding = .ok () := by
  have hvalid := hs.certificate
  simp only [validateLastCertificate, h, bind_eq_ok, ensure_eq_ok] at hvalid
  obtain ⟨_, ⟨hstep, -⟩, hverify⟩ := hvalid
  exact ⟨(checkedAdd_eq_some hstep).symm, hverify⟩

theorem ExecFrame.commitment_of_toVec {bytes : Bytes}
    (h : frame.toVec = some bytes)
    (h' : (ExecFrame.stepCertificate certificate).toVec = some bytes) :
    ∃ other, frame = .stepCertificate other ∧ other.commitment = certificate.commitment := by
  have hbytes : frame.encode = (ExecFrame.stepCertificate certificate).encode := by
    unfold toVec at h h'
    split at h <;> split at h' <;> simp_all
  cases frame with
  | stepCertificate other =>
    refine ⟨other, rfl, ?_⟩
    exact (StepCommitment.codec.encode_append_inj other.commitment.codec_valid
      certificate.commitment.codec_valid (List.cons.inj hbytes).2).1
  | _ => cases (List.cons.inj hbytes).1

/-! ## Progress that nothing undoes -/

/-- The agreed step never falls, and a conclusion never changes. -/
structure Advances (s t : ExecutionState κ) : Prop where
  step : s.agreedStep.toNat ≤ t.agreedStep.toNat
  terminal : s.status.isTerminal = true → t.status.isTerminal = true ∧
    t.agreedStep = s.agreedStep ∧ t.terminalEvidence = s.terminalEvidence

theorem Advances.refl (s : ExecutionState κ) : Advances s s := ⟨le_rfl, fun h => ⟨h, rfl, rfl⟩⟩

theorem Advances.trans {t u : ExecutionState κ} (h : Advances s t) (h' : Advances t u) :
    Advances s u := by
  refine ⟨h.step.trans h'.step, fun hs => ?_⟩
  obtain ⟨ht, hstep, hevidence⟩ := h.terminal hs
  obtain ⟨hu, hstep', hevidence'⟩ := h'.terminal ht
  exact ⟨hu, hstep'.trans hstep, hevidence'.trans hevidence⟩

private theorem Progress.advances {me : PeerId} {t : ExecutionState κ} {change : Change κ}
    (hs : s.Recoverable) (h : Progress me s input t change) : Advances s t := by
  refine ⟨?_, ?_⟩
  · cases h with
    | quiet _ hcursor =>
      have heq : t.agreedStep = s.agreedStep := congrArg StepCursor.nextStep hcursor
      rw [heq]
    | staged _ _ _ _ ht | signed _ _ _ ht =>
      subst ht
      exact le_rfl
    | completed _ _ _ _ hcertifies | certified _ _ hcertifies =>
      rw [hcertifies.agreedStep.1]
      exact Nat.le_succ _
    | stopped _ _ hstop | aborted _ hstop =>
      obtain ⟨-, -, -, -, -, -, v, -, rfl⟩ := stop_eq_ok hstop
      exact le_rfl
  · intro hterminal
    obtain ⟨-, hcursor, hcertificate, hstatus⟩ := h.of_terminal hs hterminal
    have hterminal' : t.status.isTerminal = s.status.isTerminal := by
      rw [← ExecutionStatus.isTerminal_unpublished, hstatus, ExecutionStatus.isTerminal_unpublished]
    have hcause : t.status.terminalCause = s.status.terminalCause := by
      rw [← ExecutionStatus.terminalCause_unpublished, hstatus,
        ExecutionStatus.terminalCause_unpublished]
    refine ⟨hterminal'.trans hterminal, congrArg StepCursor.nextStep hcursor, ?_⟩
    rw [terminalEvidence, terminalEvidence, hterminal', hcause, hcertificate]

theorem Host.Transition.advances {keys : HostKeys} {h h' : Host κ}
    (hs : h.Sound keys) (ht : Transition keys h input h') : Advances h.db.state h'.db.state := by
  cases ht with
  | quiet live hlive => exact .refl _
  | commit hlive hcommitted hversion hwritten =>
    rw [show (h.record input _ _).db.state = _ from hwritten.state]
    exact hcommitted.progress.advances hs.recoverable

theorem Host.Transition.ledger {keys : HostKeys} {h h' : Host κ} {entries : List TraceEntry}
    (hs : h.Sound keys) (ht : Transition keys h input h') (hledger : h.db.Ledger entries) :
    ∃ later, h'.db.Ledger (entries ++ later) := by
  cases ht with
  | quiet live hlive => exact ⟨[], (List.append_nil entries).symm ▸ hledger⟩
  | commit hlive hcommitted hversion hwritten =>
    obtain ⟨_, hledger', hextends⟩ := hledger.committed hs.recoverable hcommitted hwritten
    cases hextends with
    | same htrace hchange => exact ⟨[], (List.append_nil entries).symm ▸ hledger'⟩
    | certified hcertifies hchange => exact ⟨_, hledger'⟩

/-- Whatever a host is given, its certified trace only grows, and once it has concluded the trace
and the evidence of the conclusion stay. -/
theorem certified_trace_only_grows {keys : HostKeys} {h : Host κ} (hr : h.Reachable keys)
    (inputs : List (UInt64 × Input)) :
    ∃ entries later, h.db.loadAgreedTrace h.db.state = .ok entries ∧
      (h.run keys inputs).db.loadAgreedTrace (h.run keys inputs).db.state =
        .ok (entries ++ later) ∧
      (h.db.state.status.isTerminal = true → later = [] ∧
        (h.run keys inputs).db.state.status.isTerminal = true ∧
        (h.run keys inputs).db.state.terminalEvidence = h.db.state.terminalEvidence) := by
  obtain ⟨entries, hledger⟩ := hr.sound.ledger
  have hrun : Advances h.db.state (h.run keys inputs).db.state ∧
      ∃ later, (h.run keys inputs).db.Ledger (entries ++ later) := by
    refine hr.sound.run_transition (P := fun h' => Advances h.db.state h'.db.state ∧
      ∃ later, h'.db.Ledger (entries ++ later)) ?_ ⟨.refl _, [], by simpa using hledger⟩ inputs
    rintro h' input h'' hs ⟨hadvances, later, hlater⟩ ht
    obtain ⟨more, hmore⟩ := ht.ledger hs hlater
    exact ⟨hadvances.trans (ht.advances hs), later ++ more, List.append_assoc .. ▸ hmore⟩
  obtain ⟨hadvances, later, hlater⟩ := hrun
  refine ⟨entries, later, hledger.loadAgreedTrace_eq_ok, hlater.loadAgreedTrace_eq_ok, ?_⟩
  intro hterminal
  obtain ⟨hterminal', hstep, hevidence⟩ := hadvances.terminal hterminal
  refine ⟨?_, hterminal', hevidence⟩
  have hlength := hlater.length_eq
  rw [List.length_append, hledger.length_eq, hstep] at hlength
  exact List.eq_nil_of_length_eq_zero (by omega)

open Sample in
/-- The inputs that certified the session start change nothing after the stop. -/
theorem certified_trace_only_grows_stopped :
    let later := stoppedHost.run (keys 1) certifyStart
    later.db.loadAgreedTrace later.db.state =
        stoppedHost.db.loadAgreedTrace stoppedHost.db.state ∧
      later.db.state.terminalEvidence = stoppedHost.db.state.terminalEvidence := by
  have hr : stoppedHost.Reachable (keys 1) := ⟨_, _, created_one, rfl⟩
  obtain ⟨entries, _, hload, hlater, hstays⟩ := certified_trace_only_grows hr certifyStart
  obtain ⟨rfl, -, hevidence⟩ := hstays (by decide +kernel)
  exact ⟨by rw [hlater, hload, List.append_nil], hevidence⟩

namespace Session

variable {parties : Parties} {activation : Activation κ} {sys sys' : Session κ} {i j : PeerId}

def Past (s : ExecutionState κ) (certificate : StepCertificate) : Prop :=
  s.status.isTerminal = true ∨ certificate.commitment.step.toNat < s.agreedStep.toNat

variable {s : ExecutionState κ} {certificate : StepCertificate} {unconfirmed : Finset PeerId}

private theorem Past.advances {t : ExecutionState κ} (h : Past s certificate)
    (hadvances : Advances s t) : Past t certificate := by
  rcases h with hterminal | hlt
  · exact .inl (hadvances.terminal hterminal).1
  · exact .inr (hlt.trans_le hadvances.step)

/-- Why a terminal party waits for a peer no more: the peer is terminal, has caught up, or
has acknowledged a frame with the digest of the final one. -/
inductive Confirmed (sys : Session κ) (i j : PeerId) : Prop
  | terminal (h : (sys.host j).db.state.status.isTerminal = true)
  | caughtUp (h : (sys.host i).db.state.agreedStep.toNat ≤ (sys.host j).db.state.agreedStep.toNat)
  | acknowledged {answer : Answer} {digest : FixedBytes 32} (hmem : answer ∈ sys.answers)
      (hsource : answer.packet.source = i) (hrecipient : answer.packet.recipient = j)
      (hresult : answer.result = none)
      (hsent : Sent.ofFrame κ answer.packet.frame = some (.protocol digest))
      (hfinal : isFinalFrame (sys.host i).db.state digest = true)

private theorem Confirmed.advances (h : Confirmed sys i j)
    (hterminal : (sys.host i).db.state.status.isTerminal = true)
    (hadvances : ∀ k, Advances (sys.host k).db.state (sys'.host k).db.state)
    (hanswers : sys.answers ⊆ sys'.answers) : Confirmed sys' i j := by
  obtain ⟨-, hstep, hevidence⟩ := (hadvances i).terminal hterminal
  cases h with
  | terminal h => exact .terminal ((hadvances j).terminal h).1
  | caughtUp h =>
    refine .caughtUp ?_
    rw [hstep]
    exact h.trans (hadvances j).step
  | acknowledged hmem hsource hrecipient hresult hsent hfinal =>
    refine .acknowledged (hanswers hmem) hsource hrecipient hresult hsent ?_
    rw [isFinalFrame, hevidence]
    exact hfinal

/-- What the parties know of each other's progress. -/
structure Synced (parties : Parties) (sys : Session κ) : Prop where
  filed : ∀ i ∈ parties.correct, (sys.host i).db.Filed
  certificates : ∀ packet ∈ sys.packets, ∀ certificate,
    packet.frame = .stepCertificate certificate →
      certificate.commitment.step.toNat < (sys.host packet.source).db.state.agreedStep.toNat
  aborts : ∀ packet ∈ sys.packets, ∀ occurrence, packet.frame = .abort occurrence →
    (sys.host packet.source).db.state.status.isTerminal = true
  answers : ∀ answer ∈ sys.answers,
    (answer.packet.source ∈ parties.correct → answer.packet ∈ sys.packets) ∧
    (answer.result = none → ∀ certificate, answer.packet.frame = .stepCertificate certificate →
      Past (sys.host answer.packet.recipient).db.state certificate)
  confirmed : ∀ i ∈ parties.correct, ∀ j ∈ parties.correct, j ≠ i → ∀ unconfirmed,
    (sys.host i).db.state.endPhase.unconfirmed = some unconfirmed → j ∉ unconfirmed →
      Confirmed sys i j
  stops : ∀ i ∈ parties.correct, ∀ occurrence ∈ (sys.host i).stops, ∀ j ∈ parties.correct,
    (sys.host j).db.state.status.isTerminal = true ∨
      occurrence.coordinate.nextStep.toNat ≤ (sys.host j).db.state.agreedStep.toNat

/-- A party whose own stop takes effect has been caught up with by every running party. -/
def StopsTogether (parties : Parties) (sys : Session κ) : Action → Prop
  | .input i nowMs (.stop kind code reason) =>
    (sys.host i).db.state.status.isTerminal = false →
    ((sys.host i).handle (parties.keys i) nowMs
      (.stop kind code reason)).1.db.state.status.isTerminal = true →
    ∀ j ∈ parties.correct, (sys.host j).db.state.status.isTerminal = true ∨
      (sys.host i).db.state.agreedStep ≤ (sys.host j).db.state.agreedStep
  | _ => True

/-! ## One step -/

private theorem Sound.advances {action : Action} (hs : sys.Sound parties activation)
    (hstep : Step parties sys action sys') (k : PeerId) :
    Advances (sys.host k).db.state (sys'.host k).db.state := by
  rcases hstep.host_eq k with hsame | ⟨hk, nowMs, input, -, -, hhandle⟩
  · rw [hsame]
    exact .refl _
  · have hp := (hs.party k hk).sound
    rw [hhandle]
    exact (hp.transition nowMs input).advances hp

theorem Selected.certificate_lt (hs : s.Recoverable)
    (h : Selected s (.stepCertificate certificate)) :
    certificate.commitment.step.toNat < s.agreedStep.toNat := by
  cases h with
  | certificate h => exact (hs.lastCertificate h).1 ▸ Nat.lt_succ_self _

theorem Selected.abort_terminal {occurrence : AbortOccurrence}
    (h : Selected s (.abort occurrence)) : s.status.isTerminal = true := by
  cases h with
  | abort h => exact isTerminal_of_terminalCause h

theorem selected_of_sends {peer : PeerId} (h : sends s peer frame = true)
    (hframe : ∀ seq msg attachment,
      frame ≠ .direct seq msg attachment) : Selected s frame := by
  cases frame with
  | direct seq msg attachment => exact absurd rfl (hframe seq msg attachment)
  | _ => exact .of_deliverFrames (of_decide_eq_true h)

theorem terminal_of_routeExec {result : Option ExecDeliveryRejection} (hs : s.Recoverable)
    (h : routeExec s source frame = some result) : s.status.isTerminal = true := by
  by_contra hrunning
  rw [routeExec, hs.endPhase_eq_open (by simpa using hrunning)] at h
  cases h

theorem Sound.past_of_acknowledged {reply : GuestReply}
    {host : Host κ} {nowMs : UInt64} (hs : sys.Sound parties activation) (hi : i ∈ parties.correct)
    (hinput : input = .receive source (.stepCertificate certificate) reply)
    (hhandle : (sys.host i).handle (parties.keys i) nowMs input = (host, some none)) :
    Past host.db.state certificate := by
  subst hinput
  have hack := (hs.party i hi).sound.acknowledged (congrArg Prod.snd hhandle)
  rw [hhandle] at hack
  rcases hack with (hterminal | hlt) | hlost
  · exact .inl hterminal
  · exact .inr (UInt64.lt_iff_toNat_lt.1 hlt)
  · exact hlost.2.2.elim

theorem same_certificate (h : s.endConclusionMatches (.stepCertificate certificate) = .same) :
    ∃ ours, s.lastCertificate = some ours ∧ ours.commitment = certificate.commitment := by
  cases hevidence : s.terminalEvidence with
  | none => simp [endConclusionMatches, hevidence] at h
  | some frame =>
    cases Selected.of_terminalEvidence hevidence with
    | @certificate ours hours =>
      refine ⟨ours, hours, ?_⟩
      by_contra hne
      simp only [endConclusionMatches, hevidence, hne, ↓reduceIte] at h
      split at h <;> cases h
    | _ =>
      simp only [endConclusionMatches, hevidence] at h
      split at h <;> cases h

theorem Synced.confirms (hs : sys.Sound parties activation)
    (hy : sys.Synced parties) (hi : i ∈ parties.correct) (hj : j ∈ parties.correct)
    (hadmits : sys.Admits parties i input)
    (hconfirms : input.confirms (sys.host i).db.state = some j) : Confirmed sys i j := by
  unfold Input.confirms at hconfirms
  split at hconfirms
  · rename_i source frame reply
    split at hconfirms
    · rename_i hsame
      obtain rfl := Option.some.inj hconfirms
      have hpacket : ⟨source, i, frame⟩ ∈ sys.packets := by
        simpa only [Admits, Delivers, if_pos hj] using hadmits
      cases frame with
      | stepCertificate certificate =>
        obtain ⟨ours, hours, heq⟩ := same_certificate hsame.2.2
        have hstep := ((hs.party i hi).sound.recoverable.lastCertificate hours).1
        have hlt := hy.certificates _ hpacket certificate rfl
        refine .caughtUp ?_
        rw [← hstep, heq]
        exact hlt
      | abort occurrence => exact .terminal (hy.aborts _ hpacket occurrence rfl)
      | _ =>
        have hmatch := hsame.2.2
        unfold endConclusionMatches at hmatch
        split at hmatch
        all_goals first | cases hmatch | contradiction
    · cases hconfirms
  · rename_i peer digest
    split at hconfirms
    · rename_i hfinal
      obtain rfl := Option.some.inj hconfirms
      obtain ⟨answer, hmem, hsource, hrecipient, hsent, houtcome⟩ := hadmits hj (by simp)
      refine .acknowledged hmem hsource hrecipient ?_ hsent hfinal
      cases hresult : answer.result with
      | none => rfl
      | some rejection =>
        rw [hresult] at houtcome
        cases houtcome
    · cases hconfirms
  · cases hconfirms

theorem Synced.confirmed_input {host : Host κ}
    (hs : sys.Sound parties activation) (hy : sys.Synced parties) (hi : i ∈ parties.correct)
    (hj : j ∈ parties.correct) (hne : j ≠ i) (hadmits : sys.Admits parties i input)
    (ht : Host.Transition (parties.keys i) (sys.host i) input host)
    (hunconfirmed : host.db.state.endPhase.unconfirmed = some unconfirmed)
    (hmem : j ∉ unconfirmed) :
    (sys.host i).db.state.status.isTerminal = true ∧ Confirmed sys i j := by
  have hp := hs.party i hi
  have hkept : ∀ {before}, (sys.host i).db.state.endPhase.unconfirmed = some before →
      j ∉ before → (sys.host i).db.state.status.isTerminal = true ∧ Confirmed sys i j :=
    fun hbefore hmem => ⟨(hp.sound.recoverable.unconfirmed hbefore).1,
      hy.confirmed i hi j hj hne _ hbefore hmem⟩
  cases ht with
  | quiet live hlive => exact hkept hunconfirmed hmem
  | @commit next change db hlive hcommitted hversion hwritten =>
    rw [show ((sys.host i).record input next db).db.state = next from hwritten.state]
      at hunconfirmed
    cases hcommitted.handshake hp.sound.recoverable with
    | same hnone hterminal hphase => exact hkept (hphase ▸ hunconfirmed) hmem
    | begins hnone hrunning hterminal hphase =>
      rw [hphase] at hunconfirmed
      cases hunconfirmed
      have hsame := hcommitted.sameExecution
      refine absurd (mem_others.2 ⟨?_, ?_⟩) hmem
      · rw [hsame.producer, hp.sound.producer, parties.peerId_keys i hi]
        exact hne
      · rw [hsame.binding, hp.binding]
        exact hs.isParticipant hj
    | @confirms peer before hsome hterminal hbefore hpeer hphase =>
      rw [hphase] at hunconfirmed
      cases hunconfirmed
      by_cases hj' : j = peer
      · subst hj'
        exact ⟨hterminal.1, hy.confirms hs hi hj hadmits hsome⟩
      · exact hkept hbefore (fun h => hmem (Finset.mem_erase.2 ⟨hj', h⟩))
    | expires hnone hterminal hbefore hphase =>
      rw [hphase] at hunconfirmed
      refine hkept ?_ hmem
      rw [hbefore]
      exact hunconfirmed

/-! ## Every step -/

section Step

variable {action : Action}

theorem Step.packets_subset (hstep : Step parties sys action sys') :
    sys.packets ⊆ sys'.packets := by
  cases hstep with
  | send => exact List.subset_cons_self _ _
  | _ => exact List.Subset.refl _

theorem Step.answers_subset (hstep : Step parties sys action sys') :
    sys.answers ⊆ sys'.answers := by
  cases hstep with
  | input => exact List.subset_append_right _ _
  | route => exact List.subset_cons_self _ _
  | _ => exact List.Subset.refl _

theorem Sound.new_packet (hs : sys.Sound parties activation)
    (hstep : Step parties sys action sys') {packet : Packet} (hpacket : packet ∈ sys'.packets) :
    packet ∈ sys.packets ∨ packet.source ∈ parties.correct ∧
      sends (sys.host packet.source).db.state packet.recipient packet.frame = true := by
  cases hstep with
  | @send new s hsource hlive hsends =>
    rcases List.mem_cons.1 hpacket with rfl | hold
    · obtain rfl := (hs.party _ hsource).sound.live_eq hlive
      exact .inr ⟨hsource, hsends⟩
    · exact .inl hold
  | _ => exact .inl hpacket

theorem Step.new_answer (hstep : Step parties sys action sys') {answer : Answer}
    (hanswer : answer ∈ sys'.answers) : answer ∈ sys.answers ∨
      answer.packet.recipient ∈ parties.correct ∧ sys.Delivers parties answer.packet ∧
      (routeExec (sys.host answer.packet.recipient).db.state answer.packet.source
          answer.packet.frame = some answer.result ∨
        ∃ nowMs reply, (sys.host answer.packet.recipient).handle
          (parties.keys answer.packet.recipient) nowMs
            (.receive answer.packet.source answer.packet.frame reply) =
              (sys'.host answer.packet.recipient, some answer.result)) := by
  cases hstep with
  | @input i input host result nowMs hi hadmits hhandle =>
    rcases List.mem_append.1 hanswer with hnew | hold
    · unfold answered at hnew
      split at hnew
      · rename_i source frame reply result
        obtain rfl := List.mem_singleton.1 hnew
        refine .inr ⟨hi, hadmits, .inr ⟨nowMs, reply, ?_⟩⟩
        simpa using hhandle
      · cases hnew
    · exact .inl hold
  | @route packet result hrecipient hdelivers hroute =>
    rcases List.mem_cons.1 hanswer with rfl | hold
    · exact .inr ⟨hrecipient, hdelivers, .inl hroute⟩
    · exact .inl hold
  | _ => exact .inl hanswer

private theorem Synced.answers_step (hs : sys.Sound parties activation) (hy : sys.Synced parties)
    (hstep : Step parties sys action sys') {answer : Answer} (hanswer : answer ∈ sys'.answers) :
    (answer.packet.source ∈ parties.correct → answer.packet ∈ sys'.packets) ∧
    (answer.result = none → ∀ certificate, answer.packet.frame = .stepCertificate certificate →
      Past (sys'.host answer.packet.recipient).db.state certificate) := by
  have hadvances := hs.advances hstep answer.packet.recipient
  rcases hstep.new_answer hanswer with hold | ⟨hrecipient, hdelivers, hgiven⟩
  · obtain ⟨hsent, hpast⟩ := hy.answers answer hold
    exact ⟨fun hsource => hstep.packets_subset (hsent hsource),
      fun hnone certificate hframe => (hpast hnone certificate hframe).advances hadvances⟩
  · refine ⟨fun hsource => ?_, fun hnone certificate hframe => ?_⟩
    · rw [Delivers, if_pos hsource] at hdelivers
      exact hstep.packets_subset hdelivers
    · rcases hgiven with hroute | ⟨nowMs, reply, hhandle⟩
      · have hterminal :=
          terminal_of_routeExec (hs.party _ hrecipient).sound.recoverable hroute
        exact .inl (hadvances.terminal hterminal).1
      · rw [hframe, hnone] at hhandle
        exact hs.past_of_acknowledged hrecipient rfl hhandle

private theorem Synced.confirmed_step (hs : sys.Sound parties activation) (hy : sys.Synced parties)
    (hstep : Step parties sys action sys') (hi : i ∈ parties.correct) (hj : j ∈ parties.correct)
    (hne : j ≠ i) (hunconfirmed : (sys'.host i).db.state.endPhase.unconfirmed = some unconfirmed)
    (hmem : j ∉ unconfirmed) : Confirmed sys' i j := by
  have hadvances := hs.advances hstep
  have hanswers := hstep.answers_subset
  have hbefore : (sys.host i).db.state.status.isTerminal = true ∧ Confirmed sys i j := by
    have hp := (hs.party i hi).sound
    rcases hstep.host_eq i with hsame | ⟨-, nowMs, input, -, hadmits, hhandle⟩
    · rw [hsame] at hunconfirmed
      exact ⟨(hp.recoverable.unconfirmed hunconfirmed).1,
        hy.confirmed i hi j hj hne _ hunconfirmed hmem⟩
    · rw [hhandle] at hunconfirmed
      exact hy.confirmed_input hs hi hj hne hadmits (hp.transition nowMs input) hunconfirmed hmem
  exact hbefore.2.advances hbefore.1 hadvances hanswers

private theorem Synced.stops_step (hs : sys.Sound parties activation) (hy : sys.Synced parties)
    (hstep : Step parties sys action sys') (htogether : StopsTogether parties sys action)
    (hi : i ∈ parties.correct) {occurrence : AbortOccurrence}
    (hmem : occurrence ∈ (sys'.host i).stops) (hj : j ∈ parties.correct) :
    (sys'.host j).db.state.status.isTerminal = true ∨
      occurrence.coordinate.nextStep.toNat ≤ (sys'.host j).db.state.agreedStep.toNat := by
  have hadvances := hs.advances hstep j
  have hbefore : (sys.host j).db.state.status.isTerminal = true ∨
      occurrence.coordinate.nextStep.toNat ≤ (sys.host j).db.state.agreedStep.toNat := by
    have hkept := fun hold => hy.stops i hi occurrence hold j hj
    rcases hstep.host_eq i with hsame | ⟨-, nowMs, input, rfl, -, hhandle⟩
    · exact hkept (hsame ▸ hmem)
    · have ht := (hs.party i hi).sound.transition nowMs input
      rw [← hhandle] at ht
      generalize hhost : sys'.host i = host at hhandle hmem ht
      cases ht with
      | quiet live hlive => exact hkept hmem
      | commit hlive hcommitted hversion hwritten =>
        rcases Host.mem_stops_record.1 hmem with hnew | hold
        · obtain ⟨-, -, hstop⟩ := hcommitted.stops_eq_some hnew
          obtain ⟨-, -, -, hcoordinate, hrunning, -, _, -, hstopped⟩ := stop_eq_ok hstop
          rw [hcoordinate]
          cases input with
          | stop kind code reason =>
            refine (htogether hrunning ?_ j hj).imp_right UInt64.le_iff_toNat_le.1
            rw [← hhandle]
            exact congrArg (·.status.isTerminal) (hwritten.state.trans hstopped)
          | _ => cases hnew
        · exact hkept hold
  rcases hbefore with hterminal | hle
  · exact .inl (hadvances.terminal hterminal).1
  · exact .inr (hle.trans hadvances.step)

private theorem Synced.filed_step (hs : sys.Sound parties activation) (hy : sys.Synced parties)
    (hstep : Step parties sys action sys') (hi : i ∈ parties.correct) :
    (sys'.host i).db.Filed := by
  rcases hstep.host_eq i with hsame | ⟨-, nowMs, input, -, -, hhandle⟩
  · rw [hsame]
    exact hy.filed i hi
  · rw [hhandle]
    exact (hs.party i hi).sound.filed_handle (hy.filed i hi) nowMs input

private theorem Synced.step (hs : sys.Sound parties activation) (hy : sys.Synced parties)
    (htogether : StopsTogether parties sys action) (hstep : Step parties sys action sys') :
    sys'.Synced parties where
  filed _ hi := hy.filed_step hs hstep hi
  certificates packet hpacket certificate hframe := by
    refine lt_of_lt_of_le ?_ (hs.advances hstep packet.source).step
    rcases hs.new_packet hstep hpacket with hold | ⟨hsource, hsends⟩
    · exact hy.certificates packet hold certificate hframe
    · rw [hframe] at hsends
      exact Selected.certificate_lt (hs.party _ hsource).sound.recoverable
        (selected_of_sends hsends (by simp))
  aborts packet hpacket occurrence hframe := by
    refine ((hs.advances hstep packet.source).terminal ?_).1
    rcases hs.new_packet hstep hpacket with hold | ⟨hsource, hsends⟩
    · exact hy.aborts packet hold occurrence hframe
    · rw [hframe] at hsends
      exact Selected.abort_terminal (selected_of_sends hsends (by simp))
  answers _ hanswer := hy.answers_step hs hstep hanswer
  confirmed _ hi _ hj hne _ hunconfirmed hmem :=
    hy.confirmed_step hs hstep hi hj hne hunconfirmed hmem
  stops _ hi _ hmem _ hj := hy.stops_step hs hstep htogether hi hmem hj

end Step

theorem Initial.synced (hinitial : Initial parties activation sys) : sys.Synced parties where
  filed i hi := by
    obtain ⟨db, hcreated, -, hhost⟩ := hinitial.created i hi
    rw [hhost]
    exact hcreated.filed
  certificates packet hpacket := by
    rw [hinitial.packets] at hpacket
    cases hpacket
  aborts packet hpacket := by
    rw [hinitial.packets] at hpacket
    cases hpacket
  answers answer hanswer := by
    rw [hinitial.answers] at hanswer
    cases hanswer
  confirmed i hi j hj hne unconfirmed hunconfirmed := by
    obtain ⟨db, hcreated, -, hhost⟩ := hinitial.created i hi
    have hterminal := (hcreated.sound.recoverable.unconfirmed (hhost ▸ hunconfirmed)).1
    rw [show (Host.initial db).db.state.status = .activating from hcreated.fresh.2.1] at hterminal
    cases hterminal
  stops i hi occurrence hmem := by
    obtain ⟨db, -, -, hhost⟩ := hinitial.created i hi
    rw [hhost] at hmem
    cases hmem

/-- Every session a run reaches is synced when nobody stops ahead of the others. -/
theorem Initial.run_synced (hinitial : Initial parties activation sys) {actions : List Action}
    (htogether : AllSteps parties (StopsTogether parties) sys actions) :
    (sys.run parties actions).Synced parties :=
  (run_induction parties (P := fun sys => sys.Sound parties activation ∧ sys.Synced parties)
    ⟨hinitial.sound, hinitial.synced⟩
    (fun hsys htogether hstep => ⟨hsys.1.step hstep, hsys.2.step hsys.1 htogether hstep⟩)
    htogether).2

/-! ## The participant behind -/

def frameBytes (parties : Parties) (sys : Session κ) : Set Bytes :=
  {bytes | ∃ frame : ExecFrame, frame.toVec = some bytes ∧
    ((∃ packet ∈ sys.packets, packet.frame = frame) ∨
      ∃ i ∈ parties.correct, (sys.host i).db.state.terminalEvidence = some frame)}

/-- What the participant `j` one step behind `i` has staged, and that it certifies what it is
offered whenever it runs and its store takes the step. -/
structure CatchesUp (parties : Parties) (sys : Session κ) (i j : PeerId) : Prop where
  lead : (sys.host i).db.state.agreedStep.toNat ≤ (sys.host j).db.state.agreedStep.toNat + 1
  offered : (sys.host i).db.state.agreedStep.toNat = (sys.host j).db.state.agreedStep.toNat + 1 →
    (sys.host j).db.state.status.isTerminal = false →
    ∃ certificate proposal, (sys.host i).db.state.lastCertificate = some certificate ∧
      (sys.host j).db.state.proposal = some proposal ∧
      (sys.host j).db.state.commitmentFor proposal = certificate.commitment ∧
      ∃ frame ∈ deliverFrames (sys.host i).db.state j, ∀ nowMs reply,
        (sys.host j).db.Takes nowMs proposal →
        ∃ host, ({ sys.host j with live := some (sys.host j).db.state } : Host κ).handle
            (parties.keys j) nowMs (.receive i frame reply) = (host, some none) ∧
          host.db.state.agreedStep = (sys.host i).db.state.agreedStep

theorem Sound.lead (hs : sys.Sound parties activation) (hi : i ∈ parties.correct)
    (hj : j ∈ parties.correct) :
    (sys.host i).db.state.agreedStep.toNat ≤ (sys.host j).db.state.agreedStep.toNat + 1 := by
  by_contra hlt
  obtain ⟨c, hstep, hsigned⟩ :=
    hs.signed_step (n := (sys.host j).db.state.agreedStep.toNat + 1) hi (by omega)
  have hle := ((hs.histories hj).1.pledged c (hsigned j hj)).step_le
    (hs.party j hj).sound.recoverable
  omega

theorem Sound.staged_of_lead (hs : sys.Sound parties activation) (hi : i ∈ parties.correct)
    (hj : j ∈ parties.correct)
    (hlead : (sys.host i).db.state.agreedStep.toNat = (sys.host j).db.state.agreedStep.toNat + 1)
    (hrunning : (sys.host j).db.state.status.isTerminal = false) :
    ∃ certificate, (sys.host i).db.state.lastCertificate = some certificate ∧
      (sys.host j).db.state.proposalCommitment = some certificate.commitment := by
  have hp := hs.party i hi
  cases hcertificate : (sys.host i).db.state.lastCertificate with
  | none =>
    have hstart := hp.sound.recoverable.certificate
    simp only [validateLastCertificate, hcertificate, ensure_eq_ok] at hstart
    rw [hstart] at hlead
    exact absurd hlead (Nat.ne_of_lt (Nat.succ_pos _))
  | some certificate =>
    refine ⟨certificate, rfl, ?_⟩
    have hstep := (hp.sound.recoverable.lastCertificate hcertificate).1
    have hsigned : sys.SignedByAll parties certificate.commitment :=
      hs.justified hi (.certificate hcertificate)
    cases (hs.histories hj).1.pledged _ (hsigned j hj) with
    | agreed h => omega
    | staged hproposal _ hc =>
      rw [proposalCommitment, hproposal]
      exact congrArg some hc
    | stopped _ hcause =>
      rw [isTerminal_of_terminalCause hcause] at hrunning
      cases hrunning

/-- A terminal participant ahead of a running one was not stopped alone. -/
theorem Synced.evidence (hs : sys.Sound parties activation) (hy : sys.Synced parties)
    (hall : ∀ k, (⟨activation⟩ : ExecutionBinding κ).isParticipant k = true → k ∈ parties.correct)
    (hi : i ∈ parties.correct) (hj : j ∈ parties.correct)
    (hlead : (sys.host j).db.state.agreedStep.toNat < (sys.host i).db.state.agreedStep.toNat)
    (hrunning : (sys.host j).db.state.status.isTerminal = false)
    (hterminal : (sys.host i).db.state.status.isTerminal = true) :
    (sys.host i).db.state.terminalEvidence =
      (sys.host i).db.state.lastCertificate.map .stepCertificate := by
  have hp := hs.party i hi
  rw [terminalEvidence, if_pos hterminal]
  split
  · rename_i occurrence hcause
    obtain ⟨hsender, hcoordinate, bytes, hbytes⟩ := hp.sound.recoverable.stopped hcause
    rw [hp.binding] at hsender
    have hk := hall _ hsender
    obtain ⟨issued, hissued, heq⟩ := hp.stopped _ hcause hk
    have hcaught := hy.stops _ hk issued hissued j hj
    rw [AbortOccurrence.coordinate_eq (heq.trans hbytes) hbytes, hcoordinate, hrunning] at hcaught
    have hle := hcaught.resolve_left (by simp)
    exact absurd hle (by exact Nat.not_le.2 hlead)
  · rfl

/-- A terminal participant still waits for one that has not caught up with it. -/
theorem Synced.waits (hs : sys.Sound parties activation) (hy : sys.Synced parties)
    (hcollision : Set.InjOn κ.blake3 (sys.frameBytes parties)) (hi : i ∈ parties.correct)
    (hj : j ∈ parties.correct)
    (hevidence : (sys.host i).db.state.terminalEvidence = some (.stepCertificate certificate))
    (hlead : (sys.host i).db.state.agreedStep.toNat = (sys.host j).db.state.agreedStep.toNat + 1)
    (hrunning : (sys.host j).db.state.status.isTerminal = false)
    (hunconfirmed : (sys.host i).db.state.endPhase.unconfirmed = some unconfirmed) :
    j ∈ unconfirmed := by
  by_contra hmem
  have hne : j ≠ i := by
    intro heq
    rw [heq] at hlead
    omega
  cases hy.confirmed i hi j hj hne unconfirmed hunconfirmed hmem with
  | terminal h =>
    rw [hrunning] at h
    cases h
  | caughtUp h => omega
  | @acknowledged answer digest hanswer hsource hrecipient hresult hsent hfinal =>
    -- the acknowledged frame has the digest of the certificate, so it is that certificate
    obtain ⟨hpacket, hpast⟩ := hy.answers answer hanswer
    rw [isFinalFrame, hevidence, decide_eq_true_eq] at hfinal
    obtain ⟨final, hfinal, hdigest⟩ := Option.map_eq_some_iff.1 hfinal
    obtain ⟨bytes, hbytes, hdigest'⟩ : ∃ bytes, answer.packet.frame.toVec = some bytes ∧
        κ.blake3 bytes = digest := by
      unfold Sent.ofFrame at hsent
      split at hsent
      · cases hsent
      · simpa [frameDigest] using hsent
    obtain rfl : bytes = final := hcollision
      ⟨_, hbytes, .inl ⟨_, hpacket (hsource ▸ hi), rfl⟩⟩
      ⟨_, hfinal, .inr ⟨i, hi, hevidence⟩⟩ (hdigest'.trans hdigest.symm)
    obtain ⟨other, hframe, hcommitment⟩ := ExecFrame.commitment_of_toVec hbytes hfinal
    rcases hrecipient ▸ hpast hresult other hframe with hterminal | hlt
    · rw [hrunning] at hterminal
      cases hterminal
    · cases Selected.of_terminalEvidence hevidence with
      | certificate hlast =>
        have hstep := ((hs.party i hi).sound.recoverable.lastCertificate hlast).1
        rw [hcommitment] at hlt
        omega

theorem Synced.catchesUp (hs : sys.Sound parties activation) (hy : sys.Synced parties)
    (hall : ∀ k, (⟨activation⟩ : ExecutionBinding κ).isParticipant k = true → k ∈ parties.correct)
    (hcollision : Set.InjOn κ.blake3 (sys.frameBytes parties)) (hi : i ∈ parties.correct)
    (hj : j ∈ parties.correct) : sys.CatchesUp parties i j := by
  refine ⟨hs.lead hi hj, fun hlead hrunning => ?_⟩
  obtain ⟨certificate, hcertificate, hstaged⟩ := hs.staged_of_lead hi hj hlead hrunning
  obtain ⟨proposal, hproposal, hcommitment⟩ := Option.map_eq_some_iff.1 hstaged
  have hp := hs.party i hi
  have hpj := hs.party j hj
  refine ⟨certificate, proposal, hcertificate, hproposal, hcommitment,
    .stepCertificate certificate, ?_, fun nowMs reply htakes => ?_⟩
  · have hne : j ≠ (sys.host i).db.state.producer := by
      rw [hp.sound.producer, parties.peerId_keys i hi]
      intro heq
      rw [heq] at hlead
      omega
    rw [deliverFrames, if_neg hne]
    split
    · rename_i hterminal
      have hevidence := hy.evidence hs hall hi hj (by omega) hrunning hterminal
      rw [hcertificate] at hevidence
      split
      · rename_i unconfirmed hunconfirmed
        rw [if_pos (hy.waits hs hcollision hi hj hevidence hlead hrunning hunconfirmed), hevidence]
        exact List.mem_singleton_self _
      · rename_i hopen
        cases hphase : (sys.host i).db.state.endPhase with
        | «open» => exact absurd hphase (hp.sound.recoverable.endPhase_ne_open hterminal)
        | ending unconfirmed | ended unconfirmed =>
          rw [hphase] at hopen
          cases hopen
    · simp [currentFrames, hcertificate]
  · obtain ⟨-, hverify⟩ := hp.sound.recoverable.lastCertificate hcertificate
    have hsource : (sys.host j).db.state.binding.isParticipant i = true := by
      rw [hpj.binding]
      exact hs.isParticipant hi
    rw [hp.binding, ← hpj.binding] at hverify
    have hrun : Host.Sound (parties.keys j) { sys.host j with live := some (sys.host j).db.state } :=
      { hpj.sound with live := .inr rfl }
    obtain ⟨host, hhandle, hstep⟩ := hrun.certifies (hy.filed j hj) rfl hsource hproposal
      hcommitment hverify htakes reply
    exact ⟨host, hhandle, UInt64.toNat_inj.1 (hstep.trans hlead.symm)⟩

theorem injOn_frameBytes (frames : List ExecFrame)
    (hpackets : ∀ packet ∈ sys.packets, packet.frame ∈ frames)
    (hevidence : ∀ i ∈ parties.correct, ∀ frame ∈ (sys.host i).db.state.terminalEvidence,
      frame ∈ frames)
    (hdistinct : ∀ frame ∈ frames, ∀ other ∈ frames,
      frameDigest κ frame = frameDigest κ other → frame.toVec = other.toVec) :
    Set.InjOn κ.blake3 (sys.frameBytes parties) := by
  have hmem : ∀ frame, ((∃ packet ∈ sys.packets, packet.frame = frame) ∨
      ∃ i ∈ parties.correct, (sys.host i).db.state.terminalEvidence = some frame) →
        frame ∈ frames := by
    intro frame h
    rcases h with ⟨packet, hpacket, rfl⟩ | ⟨i, hi, h⟩
    · exact hpackets packet hpacket
    · exact hevidence i hi frame h
  intro bytes hbytes other hother heq
  obtain ⟨frame, hframe, hcompared⟩ := hbytes
  obtain ⟨frame', hframe', hcompared'⟩ := hother
  have hsame := hdistinct frame (hmem _ hcompared) frame' (hmem _ hcompared')
    (by simp [frameDigest, hframe, hframe', heq])
  rw [hframe, hframe'] at hsame
  exact Option.some.inj hsame

end Session

/-- Nobody is left behind in a run whose participants stop by themselves only where every running
participant has caught up with them: two participants are at most one step apart, and the running
one behind has the certified commitment staged and is offered a frame that certifies it, if its
store takes the timers of the step. -/
theorem nobody_left_behind {parties : Parties} {activation : Activation κ} {start : Session κ}
    {actions : List Action}
    (hall : ∀ k, (⟨activation⟩ : ExecutionBinding κ).isParticipant k = true → k ∈ parties.correct)
    (hinitial : Session.Initial parties activation start)
    (htogether : Session.AllSteps parties (Session.StopsTogether parties) start actions)
    (hcollision : Set.InjOn κ.blake3 ((start.run parties actions).frameBytes parties)) :
    ∀ i ∈ parties.correct, ∀ j ∈ parties.correct,
      (start.run parties actions).CatchesUp parties i j := by
  intro i hi j hj
  exact (hinitial.run_synced htogether).catchesUp (hinitial.run_sound actions) hall hcollision hi hj

namespace Sample

/-- The first participant has certified the session start; the second one has not, and cannot
stop any more. -/
def leadActions : List Action :=
  signStart 1 ++ signStart 2 ++ [sendStart 2 1, deliverStart 2 1,
    .input (peer 2) 0 (.stop .abort 0 "done")]

theorem allSteps_leadActions :
    Session.AllSteps parties (Session.StopsTogether parties) session leadActions := by
  refine ⟨trivial, trivial, trivial, trivial, trivial, trivial, trivial, trivial, fun _ => ?_,
    trivial⟩
  decide +kernel

end Sample

private theorem Db.Takes.of_noTimers {db : Db κ} {nowMs : UInt64} {proposal : SharedProposal κ}
    (htimers : db.timers = []) (heffects : proposal.effects = [])
    (hversion : db.state.version.toNat + 1 < 2 ^ 63) (hclock : nowMs.toNat < 2 ^ 63) :
    db.Takes nowMs proposal := by
  refine ⟨hclock, hversion, ?_, ?_⟩ <;> simp [htimers, heffects, TimersFit, timerArmings]

open Sample in
theorem nobody_left_behind_started :
    ∃ frame ∈ deliverFrames ((session.run parties leadActions).host (peer 1)).db.state (peer 2),
      ∃ host, Host.handle (keys 2) { (session.run parties leadActions).host (peer 2) with
          live := some ((session.run parties leadActions).host (peer 2)).db.state } 0
          (.receive (peer 1) frame (accepted [])) = (host, some none) ∧
        host.db.state.agreedStep = 1 := by
  have hrun : ((session.run parties leadActions).host (peer 1)).db.state.agreedStep = 1 ∧
      ((session.run parties leadActions).host (peer 2)).db.state.agreedStep = 0 ∧
      ((session.run parties leadActions).host (peer 2)).db.state.status.isTerminal = false ∧
      ((session.run parties leadActions).host (peer 2)).db.timers = [] ∧
      ((session.run parties leadActions).host (peer 2)).db.state.version.toNat + 1 < 2 ^ 63 ∧
      (∀ p ∈ ((session.run parties leadActions).host (peer 2)).db.state.proposal, p.effects = []) ∧
      (∀ packet ∈ (session.run parties leadActions).packets, packet.frame = startSignature 2) ∧
      ∀ i ∈ parties.correct, ((session.run parties leadActions).host
        i).db.state.terminalEvidence = none := by decide +kernel
  obtain ⟨hone, htwo, hrunning, htimers, hversion, heffects, hpackets, hevidence⟩ := hrun
  have hcollision := Session.injOn_frameBytes [startSignature 2]
    (fun packet hp => List.mem_singleton.2 (hpackets packet hp))
    (fun i hi frame hframe => by rw [hevidence i hi] at hframe; cases hframe) (by simp)
  have hcaught := nobody_left_behind mem_parties initial_session
    allSteps_leadActions hcollision (peer 1) (by decide) (peer 2) (by decide)
  obtain ⟨-, proposal, -, hproposal, -, frame, hframe, htakes⟩ :=
    hcaught.offered (by rw [hone, htwo]; rfl) hrunning
  obtain ⟨host, hhandle, hstep⟩ := htakes 0 (accepted [])
    (.of_noTimers htimers (heffects proposal hproposal) hversion (by decide))
  exact ⟨frame, hframe, host, hhandle, hstep.trans hone⟩

/-- The first participant stops right after it has certified the session start. -/
def Sample.stoppedLead : Session referencePrimitives :=
  Sample.session.run Sample.parties
    (Sample.leadActions ++ [.input (Sample.peer 1) 0 (.stop .abort 0 "done")])

open Sample in
/-- A participant that stops right after a certification offers its stop only, which the
participant behind cannot take in. -/
theorem stop_leaves_behind :
    ¬ ∀ (parties : Parties) (activation : Activation referencePrimitives)
      (sys : Session referencePrimitives),
      (∀ k, (⟨activation⟩ : ExecutionBinding referencePrimitives).isParticipant k = true →
        k ∈ parties.correct) →
      sys.Reachable parties activation →
      Set.InjOn referencePrimitives.blake3 (sys.frameBytes parties) →
      ∀ i ∈ parties.correct, ∀ j ∈ parties.correct, sys.CatchesUp parties i j := by
  intro hclaim
  have hrun : (stoppedLead.host (peer 1)).db.state.agreedStep = 1 ∧
      (stoppedLead.host (peer 2)).db.state.agreedStep = 0 ∧
      (stoppedLead.host (peer 2)).db.state.status.isTerminal = false ∧
      (stoppedLead.host (peer 2)).db.timers = [] ∧
      (stoppedLead.host (peer 2)).db.state.version.toNat + 1 < 2 ^ 63 ∧
      (∀ p ∈ (stoppedLead.host (peer 2)).db.state.proposal, p.effects = []) ∧
      ∀ frame ∈ deliverFrames (stoppedLead.host (peer 1)).db.state (peer 2),
        (Host.handle (parties.keys (peer 2)) { stoppedLead.host (peer 2) with
          live := some (stoppedLead.host (peer 2)).db.state } 0
            (.receive (peer 1) frame (accepted []))).2 = some (some .notYet) := by decide +kernel
  have hframes : (∀ packet ∈ stoppedLead.packets, packet.frame ∈ startSignature 2 ::
        (stoppedLead.host (peer 1)).db.state.terminalEvidence.toList) ∧
      (∀ i ∈ parties.correct,
        ∀ frame ∈ (stoppedLead.host i).db.state.terminalEvidence,
          frame ∈ startSignature 2 ::
            (stoppedLead.host (peer 1)).db.state.terminalEvidence.toList) ∧
      ∀ frame ∈ startSignature 2 ::
          (stoppedLead.host (peer 1)).db.state.terminalEvidence.toList,
        ∀ other ∈ startSignature 2 ::
          (stoppedLead.host (peer 1)).db.state.terminalEvidence.toList,
        frameDigest referencePrimitives frame = frameDigest referencePrimitives other →
          frame.toVec = other.toVec := by decide +kernel
  obtain ⟨hone, htwo, hrunning, htimers, hversion, heffects, hrefused⟩ := hrun
  have hr : stoppedLead.Reachable parties activation :=
    ⟨_, _, initial_session, rfl⟩
  have hcaught := hclaim parties activation stoppedLead mem_parties hr
    (Session.injOn_frameBytes _ hframes.1 hframes.2.1 hframes.2.2) (peer 1) (by decide)
    (peer 2) (by decide)
  obtain ⟨-, proposal, -, hproposal, -, frame, hframe, htakes⟩ :=
    hcaught.offered (by rw [hone, htwo]; rfl) hrunning
  obtain ⟨host, hhandle, -⟩ := htakes 0 (accepted [])
    (.of_noTimers htimers (heffects proposal hproposal) hversion (by decide))
  have hnotYet := hrefused frame hframe
  rw [hhandle] at hnotYet
  cases hnotYet

end Arena0
