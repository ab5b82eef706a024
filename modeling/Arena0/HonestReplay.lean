import Arena0.Noninterference
import Arena0.ReferenceHost
import Arena0.Replay

/-!
# Honest runs replay

The steps an actor certifies are what the program produces from the shared
payload, whatever the queues, the local state and the proposal staging of the
live run were: the trace of every run of the actor replays to the post-states,
the terminal value and the outcome it was certified with.
-/

namespace Arena0

open Borsh Fallible Actor ExecutionState

variable {κ : Primitives} {ε : Type} {status : ExecutionStatus κ} {change : Change κ}

/-! ## The live path -/

/-- The reply of one live call: the result of the dispatch, with the outcome projection of the
state it returned. -/
def LoadedProgram.reply (program : LoadedProgram ε) (env : ε) (shared : SharedStateBytes)
    (localState : LocalStateBytes) (call : DispatchCall) : GuestReply :=
  match program.dispatch env shared localState call with
  | .trapped message => .trapped message
  | .rejected reason => .rejected reason
  | .accepted images localImages effects callout =>
    .accepted images localImages effects callout (program.outcome (images.getD shared) call.ensemble)

/-- The guest replies to the agreed events a host committed are those of the program. -/
def Host.AnsweredBy (program : LoadedProgram ε) (ensemble : Ensemble) (h : Host κ) : Prop :=
  ∀ r ∈ h.journal, ∀ event reply, r.input.agreedEvent r.before = some (event, reply) →
    ∃ env outgoingLen, reply = program.reply env r.before.sharedState r.before.localState
      ⟨r.before.producer, ensemble, event, outgoingLen⟩

def Host.payloads (h : Host κ) : Set SharedStateBytes :=
  { payload | ∃ r ∈ h.journal, payload = r.before.sharedState ∨ payload = r.next.sharedState }

/-- The outcome of a status is the program's projection of the shared payload. -/
def LoadedProgram.Projects (program : LoadedProgram ε) (ensemble : Ensemble)
    (shared : SharedStateBytes) (status : ExecutionStatus κ) : Prop :=
  ∀ outcome, Db.terminalOutcome status = some outcome →
    ∃ json, program.outcome shared ensemble = .ok (outcome.borsh, json)

structure SharedProposal.Produced (program : LoadedProgram ε) (ensemble : Ensemble)
    (shared : SharedStateBytes) (proposal : SharedProposal κ) : Prop where
  produces : program.Produces ensemble shared proposal.entry.event proposal.sharedState
    proposal.entry.terminal
  postState : proposal.entry.postState = .ofShared κ proposal.sharedState
  projects : program.Projects ensemble proposal.sharedState proposal.status

section

variable {program : LoadedProgram ε} {ensemble : Ensemble}

theorem StepEvent.dispatchEvent_ofEvent {event : Event} {stepEvent : StepEvent}
    (h : StepEvent.ofEvent event = some stepEvent) : stepEvent.dispatchEvent = event := by
  cases event <;> cases h <;> rfl

theorem terminalOutcome_fromProposalEntry {entry : TraceEntry} {commitment : StepCommitment}
    {outcome : Option (TerminalOutcome κ)}
    (h : ExecutionStatus.fromProposalEntry entry commitment outcome = .ok status) :
    Db.terminalOutcome status = outcome := by
  unfold ExecutionStatus.fromProposalEntry at h
  split at h
  · simp only [bind_eq_ok, okOr_eq_ok, pure_eq_ok] at h
    obtain ⟨outcome, rfl, _, -, rfl⟩ := h
    rfl
  iterate 2
    · rename_i hterminal
      simp only [bind_eq_ok, ensure_eq_ok, okOr_eq_ok, pure_eq_ok, ExecutionStatus.fromSharedEntry,
        hterminal] at h
      obtain ⟨_, rfl, _, ⟨_, -, rfl⟩, hstatus⟩ := h
      cases hstatus
      rfl
  · simp only [bind_eq_ok, ensure_eq_ok, pure_eq_ok] at h
    obtain ⟨_, rfl, rfl⟩ := h
    rfl

theorem terminalOutcome_eq_some {effects : List Effect}
    {projection : Except String (Bytes × Bytes)} {outcome : TerminalOutcome κ}
    (h : Actor.terminalOutcome κ effects projection = .ok (some outcome)) :
    ∃ json, projection = .ok (outcome.borsh, json) := by
  unfold Actor.terminalOutcome at h
  split at h
  · cases h
  · simp only [bind_eq_ok, mapError_eq_ok, pure_eq_ok, Option.some.injEq, Prod.exists] at h
    obtain ⟨borsh, json, hprojection, _, -, _, hnew, rfl⟩ := h
    refine ⟨json, hprojection.trans ?_⟩
    unfold TerminalOutcome.new at hnew
    split at hnew
    · cases hnew
      rfl
    all_goals cases hnew

variable {keys : HostKeys} {db : Db κ} {input : Input} {nowMs : UInt64}

theorem staged_produced (hdet : program.SharedDeterministic) {s t : ExecutionState κ}
    {answer : Option ExecDeliveryRejection}
    {proposal : SharedProposal κ} (h : Actor.handle keys db s nowMs input = .commit t change answer)
    (hnone : s.proposal = none) (hproposal : t.proposal = some proposal)
    (hanswered : ∀ event reply, input.agreedEvent s = some (event, reply) →
      ∃ env outgoingLen, reply = program.reply env s.sharedState s.localState
        ⟨s.producer, ensemble, event, outgoingLen⟩) :
    proposal.Produced program ensemble s.sharedState := by
  obtain ⟨event, reply, result, frame, hevent, hagreed, ⟨projection, rfl, houtcome⟩, happly⟩ :=
    handle_dispatches_agreed h (by simp [Record.stages, hnone, hproposal])
  obtain ⟨stepEvent, staged, hstep, -, hstaged, hentry, hshared, commitment, hstatus⟩ :=
    applyDispatch_entry hagreed happly
  obtain rfl := Option.some.inj (hproposal.symm.trans hstaged)
  obtain ⟨env, outgoingLen, hreply⟩ := hanswered event _ hevent
  obtain rfl := StepEvent.dispatchEvent_ofEvent hstep
  unfold LoadedProgram.reply at hreply
  split at hreply
  · cases hreply
  · cases hreply
  · rename_i images localImages effects callout hcall
    obtain ⟨rfl, -, rfl, -, rfl⟩ := GuestReply.accepted.inj hreply
    have hproduces := hdet.produces hcall
    rw [Option.getD_some] at hproduces
    refine ⟨?_, ?_, ?_⟩
    · rw [hentry, hshared]
      rw [findSome?_fromEffect] at hproduces
      exact hproduces
    · rw [hentry, hshared]
      rfl
    · intro outcome hsome
      rw [terminalOutcome_fromProposalEntry hstatus] at hsome
      rw [hsome] at houtcome
      rw [hshared]
      exact terminalOutcome_eq_some houtcome

/-! ## Whole runs -/

/-- The trace of a host replays to its shared payload, and what it staged is what the program
produces from there. -/
structure Host.Replays (program : LoadedProgram ε) (ensemble : Ensemble)
    (shared : SharedStateBytes) (h : Host κ) : Prop where
  trace : ∃ entries, h.db.Ledger entries ∧
    program.Reproduces κ ensemble shared entries h.db.state.sharedState
  projects : program.Projects ensemble h.db.state.sharedState h.db.state.status
  pending : ∀ proposal, h.db.state.proposal = some proposal →
    proposal.Produced program ensemble h.db.state.sharedState

variable {shared : SharedStateBytes}

theorem projects_of_none (h : Db.terminalOutcome status = none) :
    program.Projects ensemble shared status := by
  intro outcome hsome
  rw [h] at hsome
  cases hsome

theorem terminalOutcome_unpublished (status : ExecutionStatus κ) :
    Db.terminalOutcome status.unpublished = Db.terminalOutcome status := by
  cases status <;> rfl

variable {h : Host κ} {next : ExecutionState κ}

private theorem Host.AnsweredBy.of_record
    (hanswered : (h.record input next db).AnsweredBy program ensemble) :
    h.AnsweredBy program ensemble :=
  fun r hr => hanswered r (List.mem_cons_of_mem _ hr)

theorem Host.payloads_record (h : Host κ) (input : Input) (next : ExecutionState κ) (db : Db κ) :
    h.payloads ⊆ (h.record input next db).payloads := by
  rintro payload ⟨r, hr, hpayload⟩
  exact ⟨r, List.mem_cons_of_mem _ hr, hpayload⟩

theorem SharedProposal.Produced.signed {b : ExecutionBinding κ} {c : StepCommitment}
    {x : ParticipantStepSignature} {proposal signed : SharedProposal κ}
    (h : proposal.Produced program ensemble shared)
    (hadd : proposal.addSignature b c x = .ok signed) :
    signed.Produced program ensemble shared := by
  obtain ⟨-, -, rfl⟩ := SharedProposal.addSignature_eq_ok hadd
  exact ⟨h.produces, h.postState, h.projects⟩

section

variable {entries entries' : List TraceEntry}
  (htrace : program.Reproduces κ ensemble shared entries h.db.state.sharedState)
  (hledger : db.Ledger entries') (hstate : db.state = next)

include htrace hledger hstate

private theorem Host.Replays.stays (hextends : Db.Extends h.db.state next change entries entries')
    (hchange : ∀ proposal, change ≠ .stepSignature (some proposal))
    (hpayload : next.sharedState = h.db.state.sharedState)
    (hprojects : program.Projects ensemble h.db.state.sharedState next.status)
    (hpending : ∀ proposal, next.proposal = some proposal →
      proposal.Produced program ensemble h.db.state.sharedState) :
    (h.record input next db).Replays program ensemble shared := by
  have hdb : (h.record input next db).db.state = next := hstate
  cases hextends with
  | same _ _ =>
    rw [← hpayload] at htrace hprojects hpending
    rw [← hdb] at htrace hprojects hpending
    exact ⟨⟨entries, hledger, htrace⟩, hprojects, hpending⟩
  | certified _ hcertified => exact absurd hcertified (hchange _)

private theorem Host.Replays.certifies {proposal : SharedProposal κ} {certificate : StepCertificate}
    (hextends : Db.Extends h.db.state next (.stepSignature (some (proposal.under certificate)))
      entries entries') (hcertifies : Certifies h.db.state next proposal certificate)
    (hproduced : proposal.Produced program ensemble h.db.state.sharedState) :
    (h.record input next db).Replays program ensemble shared := by
  have hdb : (h.record input next db).db.state = next := hstate
  obtain ⟨_, _, _, -, -, -, hnext⟩ := hcertifies.next
  have hshared : next.sharedState = proposal.sharedState := by rw [hnext]; rfl
  have hstatus : next.status = proposal.status := by rw [hnext]; rfl
  have hnone : next.proposal = none := by rw [hnext]; rfl
  cases hextends with
  | same _ hchange => exact absurd rfl (hchange _)
  | @certified proposal' certificate' _ hchange =>
    have hentry : (proposal'.under certificate').entry = (proposal.under certificate).entry := by
      rw [Option.some.inj (Change.stepSignature.inj hchange)]
    rw [hentry] at hledger
    refine ⟨⟨_, hledger, htrace.append ?_⟩, ?_, ?_⟩
    · rw [hdb, hshared]
      exact .cons hproduced.produces hproduced.postState (.nil _)
    · rw [hdb, hshared, hstatus]
      exact hproduced.projects
    · intro pending hsome
      rw [hdb, hnone] at hsome
      cases hsome

end

private theorem Host.Replays.decision (hdet : program.SharedDeterministic)
    {answer : Option ExecDeliveryRejection} (hs : h.Sound keys)
    (hreplays : h.Replays program ensemble shared)
    (hanswered : (h.record input next db).AnsweredBy program ensemble)
    (hinj : Set.InjOn (StateHash.ofShared κ) (h.record input next db).payloads)
    (hdecide : Actor.handle keys h.db h.db.state nowMs input = .commit next change answer)
    (hwritten : h.db.Written next change db) :
    (h.record input next db).Replays program ensemble shared := by
  have hcommitted := handle_commit hdecide
  have hstate := hwritten.state
  obtain ⟨entries, hledger, htrace⟩ := hreplays.trace
  obtain ⟨entries', hledger', hextends⟩ := hledger.committed hs.recoverable hcommitted hwritten
  cases hcommitted.progress with
  | quiet _ hcursor _ _ hproposal hstatus hchange =>
    -- the cursor commits to the payload, so a transition that keeps it keeps the payload
    have hbefore := hs.recoverable.shared_hash
    have hafter := (hcommitted.recoverable hs.recoverable).shared_hash
    have hagreed : next.agreedState = h.db.state.agreedState :=
      congrArg StepCursor.stateHash hcursor
    have hpayload : next.sharedState = h.db.state.sharedState := by
      refine hinj ⟨_, List.mem_cons_self, .inr rfl⟩ ⟨_, List.mem_cons_self, .inl rfl⟩ ?_
      rw [hafter, hbefore, hagreed]
    refine .stays htrace hledger' hstate hextends (fun p => hchange (some p)) hpayload ?_ ?_
    · rcases hstatus with hstatus | ⟨-, hactive⟩
      · intro outcome hsome
        rw [← terminalOutcome_unpublished, hstatus, terminalOutcome_unpublished] at hsome
        exact hreplays.projects outcome hsome
      · exact projects_of_none (by rw [hactive]; rfl)
    · rw [hproposal]
      exact hreplays.pending
  | staged _ hnone hactive _ ht =>
    refine .stays htrace hledger' hstate hextends (by simp) (by rw [ht]) ?_ ?_
    · rw [ht]
      exact hreplays.projects
    · intro proposal hproposal
      exact staged_produced hdet hdecide hnone hproposal (hanswered _ List.mem_cons_self)
  | signed _ hproposal hadd ht =>
    refine .stays htrace hledger' hstate hextends (by simp) (by rw [ht]) ?_ ?_
    · rw [ht]
      exact hreplays.projects
    · intro signed hsigned
      rw [ht] at hsigned
      cases hsigned
      exact (hreplays.pending _ hproposal).signed hadd
  | completed _ hproposal hadd _ hcertifies =>
    exact .certifies htrace hledger' hstate hextends hcertifies
      ((hreplays.pending _ hproposal).signed hadd)
  | certified _ hproposal hcertifies =>
    exact .certifies htrace hledger' hstate hextends hcertifies (hreplays.pending _ hproposal)
  | stopped _ _ hstop | aborted _ hstop =>
    obtain ⟨-, -, -, -, -, -, v, -, rfl⟩ := stop_eq_ok hstop
    refine .stays htrace hledger' hstate hextends (by simp) rfl (projects_of_none rfl) ?_
    intro proposal hsome
    cases hsome

/-- Every run of an execution that started from this payload replays. -/
theorem Host.Replays.run (hdet : program.SharedDeterministic) (hs : h.Sound keys)
    (hreplays : h.Replays program ensemble shared) (inputs : List (UInt64 × Input))
    (hanswered : (h.run keys inputs).AnsweredBy program ensemble)
    (hinj : Set.InjOn (StateHash.ofShared κ) (h.run keys inputs).payloads) :
    (h.run keys inputs).Replays program ensemble shared := by
  refine Sound.run_induction
    (P := fun h => h.AnsweredBy program ensemble → Set.InjOn (StateHash.ofShared κ) h.payloads →
      h.Replays program ensemble shared)
    ?_ ?_ hs (fun _ _ => hreplays) inputs hanswered hinj
  · intro h live hp hanswered hinj
    obtain ⟨htrace, hprojects, hpending⟩ := hp hanswered hinj
    exact ⟨htrace, hprojects, hpending⟩
  · intro h nowMs input next change answer db hs hp hdecide hwritten hanswered hinj
    have hbefore := hp hanswered.of_record (hinj.mono (h.payloads_record input next db))
    exact hbefore.decision hdet hs hanswered hinj hdecide hwritten

theorem Host.Replays.created {receipts : List (ReceiptArtifact κ)} {executionId : ExecId}
    {activation : Activation κ} {producer : PeerId} {localState : LocalStateBytes}
    (h : Db.create keys.peerId receipts executionId activation producer shared localState nowMs
      = .ok db) :
    db.state.binding.activation = activation ∧
      StateHash.ofShared κ shared = activation.offer.data.initialState ∧
      (Host.initial db).Replays program ensemble shared := by
  have hcreated : Host.Created keys db := ⟨_, _, _, _, _, _, _, h⟩
  obtain ⟨hnone, hactivating, hzero, -⟩ := hcreated.fresh
  obtain ⟨entries, hledger⟩ := hcreated.sound.ledger
  have hempty : entries = [] := by
    have hlen := hledger.length_eq
    rw [show (Host.initial db).db.state.agreedStep = 0 from hzero] at hlen
    exact List.eq_nil_of_length_eq_zero hlen
  subst hempty
  simp only [Db.create, ExecutionState.new, ExecutionBinding.new, bind_eq_ok, mapError_eq_ok,
    ensure_eq_ok, pure_eq_ok] at h
  obtain ⟨_, ⟨_, ⟨_, -, rfl⟩, _, -, _, -, _, -, _, hshared, rfl⟩, _, -, _, -, _, -, _, -, _, -, _, -,
    _, -, _, -, rfl⟩ := h
  refine ⟨rfl, hshared, ⟨[], hledger, .nil _⟩, projects_of_none rfl, ?_⟩
  intro proposal hsome
  cases hsome

theorem receiptTermination_completed (h : Db.receiptTermination status = .ok .completed) :
    ∃ outcome, Db.terminalOutcome status = some outcome := by
  cases status with
  | certified outcome | completed outcome => exact ⟨outcome, rfl⟩
  | _ => cases h

/-- A host that replays reproduces its payload from its trace, and its receipt is fully
verified. -/
theorem Host.Replays.verified (hdet : program.SharedDeterministic) {localState : LocalStateBytes}
    {activation : Activation κ} (hreplays : h.Replays program ensemble shared)
    (hactivation : h.db.activation = activation) (hbinding : h.db.state.binding = ⟨activation⟩)
    (hensemble : (⟨activation⟩ : ExecutionBinding κ).ensemble = .ok ensemble)
    (hinit : program.init activation.offer.data.params.bytes = .ok (shared, localState))
    (hhash : StateHash.ofShared κ shared = activation.offer.data.initialState) :
    ∃ entries, h.db.loadAgreedTrace h.db.state = .ok entries ∧
      program.Reproduces κ ensemble shared entries h.db.state.sharedState ∧
      (∀ env localPeer, replayShared program env h.db.state.binding localPeer entries =
        .ok h.db.state.sharedState) ∧
      (program.hash = h.db.state.binding.programHash →
        program.profile = activation.offer.data.executionProfile →
        ∀ artifact, h.db.assembleReceipt h.db.state = .ok artifact →
          artifact.body.trace = entries ∧
            ∀ env, ∃ json, verifyFull program env artifact = .ok json) := by
  obtain ⟨entries, hledger, htrace⟩ := hreplays.trace
  have hreplay : ∀ env localPeer,
      replayShared program env (⟨activation⟩ : ExecutionBinding κ) localPeer entries =
        .ok h.db.state.sharedState := fun env localPeer =>
    hdet.replayShared_eq_ok.2
      ⟨ensemble, shared, localState, hensemble, hinit, hhash, hledger.map_step, htrace⟩
  rw [hbinding]
  refine ⟨entries, hledger.loadAgreedTrace_eq_ok, htrace, hreplay, ?_⟩
  intro hprogram hprofile artifact hassemble
  obtain ⟨termination, htermination, hbody⟩ := hledger.assembleReceipt_eq_ok hassemble
  rw [hactivation] at hbody
  refine ⟨by rw [hbody], fun env => ?_⟩
  obtain ⟨localPeer, hpeer⟩ : ∃ localPeer, ensemble.peers.head? = some localPeer := by
    have hbounds := ensemble.bounds
    cases hpeers : ensemble.peers with
    | nil =>
      rw [hpeers] at hbounds
      simp at hbounds
    | cons peer peers => exact ⟨peer, rfl⟩
  simp only [verifyFull, hbody, bind_eq_ok, ensure_eq_ok, mapError_eq_ok, okOr_eq_ok]
  cases termination with
  | stopped cause =>
    exact ⟨none, (), hprogram, (), hprofile, ensemble, hensemble, localPeer, hpeer, _,
      hreplay env localPeer, rfl⟩
  | completed =>
    obtain ⟨outcome, houtcome⟩ := receiptTermination_completed htermination
    obtain ⟨json, hprojection⟩ := hreplays.projects outcome houtcome
    refine ⟨some json, (), hprogram, (), hprofile, ensemble, hensemble, localPeer, hpeer, _,
      hreplay env localPeer, ?_⟩
    simp only [bind_eq_ok, ensure_eq_ok, mapError_eq_ok, pure_eq_ok]
    refine ⟨_, hprojection, (), ?_, rfl⟩
    rw [houtcome]
    rfl

end

/-- Replay accepts every honest run and only reproducible artifacts.  The trace of every run of
the actor from the state images of the program replays to its shared payload, and the receipt the
actor publishes is fully verified; conversely every post-state, terminal value and outcome of a
fully verified artifact is what the program produces, from the initial state of the offer on. -/
theorem replay_accepts_honest_runs_only_reproducible {program : LoadedProgram ε}
    (hdet : program.SharedDeterministic) :
    (∀ (keys : HostKeys) (db : Db κ) receipts executionId activation producer shared localState
        createdMs, Db.create keys.peerId receipts executionId activation producer shared localState
          createdMs = .ok db →
      program.init activation.offer.data.params.bytes = .ok (shared, localState) →
      ∃ ensemble, (⟨activation⟩ : ExecutionBinding κ).ensemble = .ok ensemble ∧
        ∀ inputs h, h = (Host.initial db).run keys inputs → h.AnsweredBy program ensemble →
          Set.InjOn (StateHash.ofShared κ) h.payloads →
          ∃ entries, h.db.loadAgreedTrace h.db.state = .ok entries ∧
            program.Reproduces κ ensemble shared entries h.db.state.sharedState ∧
            (∀ env localPeer, replayShared program env h.db.state.binding localPeer entries =
              .ok h.db.state.sharedState) ∧
            (program.hash = h.db.state.binding.programHash →
              program.profile = activation.offer.data.executionProfile →
              ∀ nowMs next artifact answer, Actor.handle keys h.db h.db.state nowMs .publish =
                  .commit next (.publish artifact) answer →
                artifact.body.trace = entries ∧
                  ∀ env, ∃ json, verifyFull program env artifact = .ok json)) ∧
    ∀ (artifact : ReceiptArtifact κ) env json, verifyFull program env artifact = .ok json →
      ∃ ensemble shared localState final,
        (⟨artifact.body.header.activation⟩ : ExecutionBinding κ).ensemble = .ok ensemble ∧
        program.init artifact.body.header.activation.offer.data.params.bytes =
          .ok (shared, localState) ∧
        StateHash.ofShared κ shared = artifact.body.header.activation.offer.data.initialState ∧
        program.Reproduces κ ensemble shared artifact.body.trace final ∧
        (artifact.body.header.terminal = .completed →
          ∃ projection, program.outcome final ensemble = .ok (artifact.body.outcome, projection) ∧
            json = some projection) := by
  refine ⟨?_, ?_⟩
  · intro keys db receipts executionId activation producer shared localState createdMs hcreate hinit
    obtain ⟨ensemble, hensemble⟩ := ExecutionBinding.exists_ensemble (κ := κ) ⟨activation⟩
    refine ⟨ensemble, hensemble, ?_⟩
    rintro inputs h rfl hanswered hinj
    have hs : (Host.initial db).Sound keys := Host.Created.sound ⟨_, _, _, _, _, _, _, hcreate⟩
    obtain ⟨hactivation, hhash, hcreated⟩ :=
      @Host.Replays.created κ ε program ensemble keys _ _ _ _ _ _ _ _ hcreate
    have hrun := hcreated.run hdet hs inputs hanswered hinj
    have hbinding : ((Host.initial db).run keys inputs).db.state.binding = ⟨activation⟩ :=
      (hs.run_binding inputs).trans (congrArg ExecutionBinding.mk hactivation)
    have hsame := (hs.run inputs).activation.trans (congrArg ExecutionBinding.activation hbinding)
    obtain ⟨entries, hload, htrace, hreplay, hverify⟩ :=
      hrun.verified hdet hsame hbinding hensemble hinit hhash
    refine ⟨entries, hload, htrace, hreplay, ?_⟩
    intro hprogram hprofile nowMs next artifact answer hdecide
    refine hverify hprogram hprofile artifact ?_
    cases handle_commit hdecide with
    | publish hassemble _ => exact hassemble
  · intro artifact env json h
    simp only [verifyFull, bind_eq_ok, ensure_eq_ok, mapError_eq_ok, okOr_eq_ok] at h
    obtain ⟨_, -, _, -, ensemble, hensemble, localPeer, -, final, hreplay, hending⟩ := h
    obtain ⟨ensemble', shared, localState, hensemble', hinit, hhash, -, htrace⟩ :=
      hdet.replayShared_eq_ok.1 hreplay
    obtain rfl := Except.ok.inj (hensemble.symm.trans hensemble')
    refine ⟨ensemble, shared, localState, final, hensemble, hinit, hhash, htrace, fun hcompleted => ?_⟩
    rw [hcompleted] at hending
    simp only [bind_eq_ok, ensure_eq_ok, mapError_eq_ok, pure_eq_ok, Prod.exists] at hending
    obtain ⟨borsh, projection, houtcome, _, rfl, rfl⟩ := hending
    exact ⟨projection, houtcome, rfl⟩

namespace Sample

/-- A program whose first message ends the session with a new payload. -/
def endingProgram : LoadedProgram Unit where
  hash := offerData.programHash
  profile := offerData.executionProfile
  init _ := .ok (shared, localState)
  dispatch _ _ _ call := match call.event with
    | .messageReceived _ _ => .accepted (some finalState) (some localState) [.sessionEnd [1]] none
    | _ => .accepted (some shared) (some localState) [] none
  outcome payload _ :=
    if payload = finalState then .ok ([1], Codec.utf8 "\x7b\x7d") else .error "no outcome"

theorem answeredBy_endedHost (ensemble : Ensemble) :
    endedHost.AnsweredBy endingProgram ensemble := by
  have hreplies : ∀ r ∈ endedHost.journal, (r.input.agreedEvent r.before).all (fun answered =>
      decide (answered.2 = endingProgram.reply () r.before.sharedState r.before.localState
        ⟨r.before.producer, bothPeers, answered.1, 0⟩)) = true := by
    decide +kernel
  intro r hr event reply hevent
  have hreply := hreplies r hr
  rw [hevent] at hreply
  exact ⟨(), 0, of_decide_eq_true hreply⟩

theorem payloads_endedHost : ∀ payload ∈ endedHost.payloads, payload ∈ [shared, finalState] := by
  have hpayloads : ∀ r ∈ endedHost.journal, r.before.sharedState ∈ [shared, finalState] ∧
      r.next.sharedState ∈ [shared, finalState] := by decide +kernel
  rintro payload ⟨r, hr, rfl | rfl⟩
  · exact (hpayloads r hr).1
  · exact (hpayloads r hr).2

def published {α : Type} :
    Decision referencePrimitives α → Option (ReceiptArtifact referencePrimitives)
  | .commit _ (.publish artifact) _ => some artifact
  | _ => none

theorem publishes_endedHost : ∃ next artifact answer,
    Actor.handle (keys 1) endedHost.db endedHost.db.state 0 .publish =
      .commit next (.publish artifact) answer ∧ artifact.body.header.terminal = .completed := by
  have hcommit : (published (Actor.handle (keys 1) endedHost.db endedHost.db.state 0 .publish)).any
      (·.body.header.terminal = .completed) = true := by decide +kernel
  unfold published at hcommit
  split at hcommit
  · rename_i heq
    exact ⟨_, _, _, heq, of_decide_eq_true hcommit⟩
  · cases hcommit

end Sample

open Sample in
/-- The receipt of a session that ended is fully verified, and verification projects its
outcome. -/
theorem replay_accepts_honest_runs_only_reproducible_ended :
    ∃ artifact : ReceiptArtifact referencePrimitives, artifact.body.trace.length = 2 ∧
      artifact.body.header.terminal = .completed ∧ ∃ projection,
      verifyFull endingProgram (fun _ => ()) artifact = .ok (some projection) := by
  have hdet : endingProgram.SharedDeterministic := fun _ _ _ _ _ _ _ _ hevent _ => by
    simp only [endingProgram, hevent]
  obtain ⟨honest, reproducible⟩ :=
    replay_accepts_honest_runs_only_reproducible (κ := referencePrimitives) hdet
  have hcreate := create_eq_ok (n := 1) (by decide +kernel) (by decide +kernel)
  obtain ⟨ensemble, -, hruns⟩ := honest (keys 1) _ _ _ _ _ _ _ _ hcreate rfl
  have hdistinct : ∀ x ∈ [shared, finalState], ∀ y ∈ [shared, finalState],
      StateHash.ofShared referencePrimitives x = StateHash.ofShared referencePrimitives y → x = y := by
    decide +kernel
  have hinj : Set.InjOn (StateHash.ofShared referencePrimitives) endedHost.payloads :=
    fun x hx y hy => hdistinct x (payloads_endedHost x hx) y (payloads_endedHost y hy)
  obtain ⟨entries, hload, -, -, hpublished⟩ :=
    hruns _ endedHost rfl (answeredBy_endedHost ensemble) hinj
  obtain ⟨next, artifact, answer, hpublish, hcompleted⟩ := publishes_endedHost
  obtain ⟨htrace, hverify⟩ :=
    hpublished (by decide +kernel) rfl 0 next artifact answer hpublish
  obtain ⟨json, hjson⟩ := hverify fun _ => ()
  obtain ⟨_, _, _, _, -, -, -, -, houtcome⟩ := reproducible artifact _ json hjson
  obtain ⟨projection, -, rfl⟩ := houtcome hcompleted
  have hlength : (endedHost.db.loadAgreedTrace endedHost.db.state).map List.length = .ok 2 := by
    decide +kernel
  rw [hload] at hlength
  exact ⟨artifact, by rw [htrace]; exact Except.ok.inj hlength, hcompleted, projection, hjson⟩

end Arena0
