import Arena0.Session

/-!
# Step agreement

Across every run of a session, a certified commitment carries the signature of every
party.  Since a party signs one commitment for each step, any two parties hold the
same certified steps; and when all participants are parties, nobody stops at a step
that anybody has certified.
-/

namespace Arena0

open Borsh Fallible Actor ExecutionState

variable {κ : Primitives} {c : StepCommitment} {occurrence : AbortOccurrence}
  {s t : ExecutionState κ} {frame : ExecFrame} {j : PeerId}

/-! ## Complete proposals and inputs -/

theorem SignedBy.complete {b : ExecutionBinding κ}
    {signatures : List ParticipantStepSignature} (h : SignedBy b c signatures)
    (hlength : signatures.length = b.activation.tickets.length) {peer : PeerId}
    (hpeer : b.isParticipant peer = true) : ∃ x ∈ signatures, x.participant = peer := by
  have hperm := h.subperm.perm_of_length_le (by simp [hlength])
  have hmem : peer ∈ signatures.map (·.participant) :=
    hperm.mem_iff.2 ((b.isParticipant_iff peer).1 hpeer)
  simpa using hmem

theorem Committed.stepSignature {keys : HostKeys} {db : Db κ}
    {source : PeerId} {sig : BlsSignature} {reply : GuestReply}
    {change : Change κ}
    (h : Committed keys db s (.receive source (.stepSignature c sig) reply) t change) :
    s.proposalCommitment = some c := by
  cases h with
  | dispatch hinput h => cases hinput
  | signature hproposal h => exact hproposal
  | evidence hauth hterminal hmatch h =>
    have hsigner : (Input.receive source (.stepSignature c sig) reply).signer source = none :=
      signer_of_endConclusionMatches hmatch
    cases hsigner

theorem Certifies.lastCertificate {proposal : SharedProposal κ}
    {certificate : StepCertificate} (h : Certifies s t proposal certificate) :
    t.lastCertificate = some certificate := by
  obtain ⟨_, _, _, -, -, -, rfl⟩ := h.next
  rfl

/-- The evidence behind a certification: all signatures, or a certificate that arrived. -/
private theorem Progress.of_certifies {me : PeerId} {input : Input}
    {change : Change κ} {certified : SharedProposal κ} {certificate : StepCertificate}
    (h : Progress me s input t change) (hcertifies : Certifies s t certified certificate) :
    (∃ proposal signed x, input.signer me = some x.participant ∧ s.proposal = some proposal ∧
      proposal.addSignature s.binding (s.commitmentFor proposal) x = .ok signed ∧
      certificate.commitment = s.commitmentFor proposal ∧
      ∀ peer, s.binding.isParticipant peer = true → hasSigned signed peer = true) ∨
    ∃ source reply, input = .receive source (.stepCertificate certificate) reply := by
  have hstep := hcertifies.agreedStep.1
  have hlast := hcertifies.lastCertificate
  cases h with
  | quiet _ hcursor =>
    have heq : t.agreedStep = s.agreedStep := congrArg StepCursor.nextStep hcursor
    rw [heq] at hstep
    omega
  | staged _ _ _ _ ht | signed _ _ _ ht =>
    subst ht
    simp at hstep
  | stopped _ _ hstop | aborted _ hstop =>
    obtain ⟨-, -, -, -, -, -, v, -, rfl⟩ := stop_eq_ok hstop
    exact absurd hstep (Nat.ne_of_lt (Nat.lt_succ_self _))
  | completed hsigner hproposal hadd hcomplete hcertifies' =>
    obtain rfl := Option.some.inj (hcertifies'.lastCertificate.symm.trans hlast)
    refine .inl ⟨_, _, _, hsigner, hproposal, hadd, ?_, ?_⟩
    · exact hcertifies'.commitment.trans (commitmentFor_addSignature hadd)
    · intro peer hpeer
      have hsigned := (validateProposal_eq_ok.1 hcertifies'.valid).2
      obtain ⟨x, hx, rfl⟩ := hsigned.complete hcomplete hpeer
      exact hasSigned_of_mem hx
  | certified hinput hproposal hcertifies' =>
    obtain rfl := Option.some.inj (hcertifies'.lastCertificate.symm.trans hlast)
    exact .inr ⟨_, _, hinput⟩

namespace Session

variable {parties : Parties}

/-! ## Growing histories -/

/-- No history of a later session has lost anything. -/
structure Grows (sys sys' : Session κ) : Prop where
  signed : ∀ k, (sys.host k).signed k ⊆ (sys'.host k).signed k
  stops : ∀ k, (sys.host k).stops ⊆ (sys'.host k).stops

variable {sys sys' : Session κ}

private theorem SignedByAll.grows (h : sys.SignedByAll parties c)
    (hgrows : sys.Grows sys') : sys'.SignedByAll parties c :=
  fun k hk => hgrows.signed k (h k hk)

private theorem Issued.grows (h : sys.Issued parties occurrence)
    (hgrows : sys.Grows sys') : sys'.Issued parties occurrence := by
  intro hsender
  obtain ⟨issued, hissued, heq⟩ := h hsender
  exact ⟨issued, hgrows.stops _ hissued, heq⟩

/-- The facts behind a frame that a party has sent. -/
def Justified (parties : Parties) (sys : Session κ) (source : PeerId) : ExecFrame → Prop
  | .stepCertificate certificate => sys.SignedByAll parties certificate.commitment
  | .stepSignature c _ => c ∈ (sys.host source).signed source
  | .abort occurrence => sys.Issued parties occurrence
  | .message .. | .direct .. => True

variable {source : PeerId}

private theorem Justified.grows (h : sys.Justified parties source frame)
    (hgrows : sys.Grows sys') : sys'.Justified parties source frame := by
  cases frame with
  | stepCertificate certificate => exact SignedByAll.grows h hgrows
  | stepSignature c sig => exact hgrows.signed source h
  | abort occurrence => exact Issued.grows h hgrows
  | message c data => trivial
  | direct seq msg attachment => trivial

/-! ## The invariant -/

structure Party (parties : Parties) (activation : Activation κ) (sys : Session κ) (i : PeerId)
    (h : Host κ) : Prop where
  sound : h.Sound (parties.keys i)
  histories : h.Histories (parties.keys i)
  binding : h.db.state.binding = ⟨activation⟩
  certified : ∃ entries, h.db.Ledger entries ∧
    ∀ c ∈ traceCommitments κ activation.sessionHash chainStart entries, sys.SignedByAll parties c
  staged : ∀ proposal, h.db.state.proposal = some proposal → ∀ k ∈ parties.correct,
    hasSigned proposal k = true → h.db.state.commitmentFor proposal ∈ (sys.host k).signed k
  stopped : ∀ occurrence,
    h.db.state.status.terminalCause = some (.authenticated occurrence) →
      sys.Issued parties occurrence

private theorem Party.grows {activation : Activation κ} {i : PeerId} {h : Host κ}
    (hp : Party parties activation sys i h) (hgrows : sys.Grows sys') :
    Party parties activation sys' i h := by
  obtain ⟨entries, hledger, hsigned⟩ := hp.certified
  refine ⟨hp.sound, hp.histories, hp.binding, ⟨entries, hledger, ?_⟩, ?_, ?_⟩
  · exact fun c hc => (hsigned c hc).grows hgrows
  · exact fun p hproposal k hk hsigned => hgrows.signed k (hp.staged p hproposal k hk hsigned)
  · exact fun occurrence hcause => (hp.stopped occurrence hcause).grows hgrows

/-- What holds of a session between two steps. -/
structure Sound (parties : Parties) (activation : Activation κ) (sys : Session κ) : Prop where
  party : ∀ i ∈ parties.correct, Party parties activation sys i (sys.host i)
  packets : ∀ packet ∈ sys.packets, packet.source ∈ parties.correct ∧
    sys.Justified parties packet.source packet.frame

variable {activation : Activation κ} {sys : Session κ} {i : PeerId}

theorem Sound.isParticipant (hs : sys.Sound parties activation) (hi : i ∈ parties.correct) :
    (⟨activation⟩ : ExecutionBinding κ).isParticipant i = true := by
  have hp := hs.party i hi
  have hproducer := hp.sound.recoverable.producer
  rw [hp.binding, hp.sound.producer, parties.peerId_keys i hi] at hproducer
  exact hproducer

theorem Sound.certificate (hs : sys.Sound parties activation) {certificate : StepCertificate}
    (h : sys.Delivers parties ⟨source, i, .stepCertificate certificate⟩)
    (hverify : certificate.verify (sys.host i).db.state.binding = .ok ()) :
    sys.SignedByAll parties certificate.commitment := by
  unfold Delivers at h
  split at h
  · exact (hs.packets _ h).2
  · exact h hverify

theorem Sound.abort (hs : sys.Sound parties activation)
    (h : sys.Delivers parties ⟨source, i, .abort occurrence⟩)
    (hverify : occurrence.verifySignature κ = .ok true) : sys.Issued parties occurrence := by
  unfold Delivers at h
  split at h
  · exact (hs.packets _ h).2
  · exact h hverify

theorem Sound.stepSignature (hs : sys.Sound parties activation)
    {sig : BlsSignature} (h : sys.Delivers parties ⟨source, i, .stepSignature c sig⟩)
    (hsource : source ∈ parties.correct) : c ∈ (sys.host source).signed source := by
  rw [Delivers, if_pos hsource] at h
  exact (hs.packets _ h).2

/-! ## One input of one party -/

def setHost (sys : Session κ) (i : PeerId) (h : Host κ) (answers : List Answer) : Session κ :=
  ⟨Function.update sys.host i h, sys.packets, answers⟩

private theorem grows_setHost {keys : HostKeys} {input : Input} {h : Host κ} (answers : List Answer)
    (ht : Host.Transition keys (sys.host i) input h) : sys.Grows (sys.setHost i h answers) := by
  have hsigned : (sys.host i).signed i ⊆ h.signed i ∧ (sys.host i).stops ⊆ h.stops := by
    cases ht with
    | quiet live hlive => exact ⟨List.Subset.refl _, List.Subset.refl _⟩
    | commit hlive hcommitted hversion hwritten =>
      refine ⟨?_, fun o ho => Host.mem_stops_record.2 (.inr ho)⟩
      rw [Host.signed_record]
      exact List.subset_append_right _ _
  refine ⟨fun k => ?_, fun k => ?_⟩
  · by_cases hk : k = i
    · subst hk
      simpa [setHost] using hsigned.1
    · simp [setHost, hk]
  · by_cases hk : k = i
    · subst hk
      simpa [setHost] using hsigned.2
    · simp [setHost, hk]

variable {input : Input} {next : ExecutionState κ} {change : Change κ} {h : Host κ}
  {answers : List Answer}

theorem Sound.signers (hs : sys.Sound parties activation) (hi : i ∈ parties.correct)
    (hadmits : sys.Admits parties i input) {proposal signed : SharedProposal κ}
    {x : ParticipantStepSignature}
    (hcommitted : Committed (parties.keys i) (sys.host i).db (sys.host i).db.state input next change)
    (hsigner : input.signer (parties.keys i).peerId = some x.participant)
    (hproposal : (sys.host i).db.state.proposal = some proposal)
    (hadd : proposal.addSignature (sys.host i).db.state.binding
      ((sys.host i).db.state.commitmentFor proposal) x = .ok signed)
    (hgrows : sys.Grows (sys.setHost i h answers))
    (hown : h.signed i = (if input.signer i = some i then (sys.host i).db.state.proposalCommitment
      else none).toList ++ (sys.host i).signed i) {k : PeerId} (hk : k ∈ parties.correct)
    (hsigned : hasSigned signed k = true) :
    (sys.host i).db.state.commitmentFor proposal ∈ ((sys.setHost i h answers).host k).signed k := by
  rw [parties.peerId_keys i hi] at hsigner
  rcases (hasSigned_addSignature hadd).1 hsigned with rfl | hbefore
  · by_cases hki : x.participant = i
    · have hmem : (sys.host i).db.state.commitmentFor proposal ∈ h.signed i := by
        rw [hown, hsigner, if_pos (congrArg some hki), proposalCommitment, hproposal]
        exact List.mem_append_left _ (by simp)
      simpa [setHost, hki] using hmem
    · cases input with
      | sign => exact absurd (Option.some.inj hsigner).symm hki
      | receive source frame reply =>
        cases frame with
        | stepSignature c sig =>
          obtain rfl : source = x.participant := Option.some.inj hsigner
          have hc := hcommitted.stepSignature
          rw [proposalCommitment, hproposal] at hc
          rw [Option.some.inj hc]
          exact hgrows.signed _ (hs.stepSignature hadmits hk)
        | _ => cases hsigner
      | _ => cases hsigner
  · exact hgrows.signed k ((hs.party i hi).staged proposal hproposal k hk hbefore)

section Commit

variable {db : Db κ} (hs : sys.Sound parties activation) (hi : i ∈ parties.correct)
  (hadmits : sys.Admits parties i input)
  (hcommitted : Committed (parties.keys i) (sys.host i).db (sys.host i).db.state input next change)
  (hgrows : sys.Grows (sys.setHost i ((sys.host i).record input next db) answers))

include hs hi hadmits hcommitted hgrows

theorem Sound.certified_commit (hwritten : (sys.host i).db.Written next change db) :
    ∃ entries, db.Ledger entries ∧
      ∀ c ∈ traceCommitments κ activation.sessionHash chainStart entries,
        (sys.setHost i ((sys.host i).record input next db) answers).SignedByAll parties c := by
  have hp := hs.party i hi
  have hown := Host.signed_record i (sys.host i) input next db
  have hstate : db.state = next := hwritten.state
  have hbinding : db.state.binding = ⟨activation⟩ := by
    rw [hstate, hcommitted.sameExecution.binding]
    exact hp.binding
  obtain ⟨entries, hledger, hsigned⟩ := hp.certified
  obtain ⟨entries', hledger', hextends⟩ :=
    hledger.committed hp.sound.recoverable hcommitted hwritten
  refine ⟨entries', hledger', ?_⟩
  cases hextends with
  | same htrace => exact fun c hc => (hsigned c hc).grows hgrows
  | @certified proposal certificate hcertifies =>
    intro c hc
    rw [traceCommitments_append] at hc
    rcases List.mem_append.1 hc with hc | hc
    · exact (hsigned c hc).grows hgrows
    · have hlast := hledger'.lastCertificate
      rw [hstate, hcertifies.lastCertificate, ← hstate, hbinding, traceCommitments_append] at hlast
      simp only [traceCommitments, List.mem_singleton] at hc
      simp only [traceCommitments, List.getLast?_append, List.getLast?_singleton, Option.some_or,
        Option.map_some, Option.some.injEq] at hlast
      obtain rfl : certificate.commitment = c := hlast.trans hc.symm
      rcases hcommitted.progress.of_certifies hcertifies with
        ⟨staged, signed, x, hsigner, hproposal, hadd, hcommitment, hall⟩ | ⟨source, reply, rfl⟩
      · intro k hk
        rw [hcommitment]
        refine hs.signers hi hadmits hcommitted hsigner hproposal hadd hgrows hown hk (hall k ?_)
        rw [hp.binding]
        exact hs.isParticipant hk
      · exact (hs.certificate hadmits hcertifies.verify).grows hgrows

theorem Sound.staged_commit {proposal : SharedProposal κ} (hproposal : next.proposal = some proposal)
    {k : PeerId} (hk : k ∈ parties.correct) (hsigned : hasSigned proposal k = true) :
    next.commitmentFor proposal ∈
      ((sys.setHost i ((sys.host i).record input next db) answers).host k).signed k := by
  have hp := hs.party i hi
  have hown := Host.signed_record i (sys.host i) input next db
  have hsame := hcommitted.sameExecution
  cases hcommitted.progress with
  | quiet _ hcursor _ _ hkept =>
    have hlink : next.agreedLink = (sys.host i).db.state.agreedLink :=
      congrArg StepCursor.chainHash hcursor
    rw [commitmentFor, hsame.binding, hlink]
    exact hgrows.signed k (hp.staged proposal (hkept ▸ hproposal) k hk hsigned)
  | staged _ _ _ hstaged ht =>
    subst ht
    cases hproposal
    simp [hasSigned, hstaged.signatures_eq] at hsigned
  | signed hsigner hbefore hadd ht =>
    have hkept : ∀ p, next.commitmentFor p = (sys.host i).db.state.commitmentFor p := by
      subst ht
      exact fun p => rfl
    have hnext : next.proposal = _ := congrArg ExecutionState.proposal ht
    obtain rfl := Option.some.inj (hnext.symm.trans hproposal)
    rw [hkept, commitmentFor_addSignature hadd]
    exact hs.signers hi hadmits hcommitted hsigner hbefore hadd hgrows hown hk hsigned
  | completed _ _ _ _ hcertifies | certified _ _ hcertifies =>
    rw [hcertifies.agreedStep.2] at hproposal
    cases hproposal
  | stopped _ _ hstop | aborted _ hstop =>
    obtain ⟨-, -, -, -, -, -, v, -, rfl⟩ := stop_eq_ok hstop
    cases hproposal

theorem Sound.stopped_commit
    (hcause : next.status.terminalCause = some (.authenticated occurrence)) :
    (sys.setHost i ((sys.host i).record input next db) answers).Issued parties occurrence := by
  have hp := hs.party i hi
  cases hcommitted.progress with
  | quiet _ _ _ _ _ hstatus =>
    rcases hstatus with hstatus | ⟨-, hactive⟩
    · rw [← ExecutionStatus.terminalCause_unpublished, hstatus,
        ExecutionStatus.terminalCause_unpublished] at hcause
      exact (hp.stopped occurrence hcause).grows hgrows
    · rw [hactive] at hcause
      cases hcause
  | staged _ _ _ _ ht | signed _ _ _ ht =>
    subst ht
    exact (hp.stopped occurrence hcause).grows hgrows
  | completed _ _ _ _ hcertifies | certified _ _ hcertifies =>
    have hstatus := (validateProposal_eq_ok.1 hcertifies.valid).1.status_valid
    obtain ⟨_, _, _, -, -, -, rfl⟩ := hcertifies.next
    exact absurd hcause ((ExecutionStatus.validateProposalStatus_terminal hstatus).2 occurrence)
  | stopped hinput hsender hstop =>
    obtain ⟨-, -, -, -, -, -, v, -, ht⟩ := stop_eq_ok hstop
    subst hinput ht
    obtain rfl := StopCause.authenticated.inj (Option.some.inj hcause)
    have hsender' := hsender.trans (parties.peerId_keys i hi)
    intro _
    refine ⟨_, ?_, rfl⟩
    rw [hsender']
    simp only [setHost, Function.update_self]
    exact Host.mem_stops_record.2 (.inl rfl)
  | aborted hinput hstop =>
    obtain ⟨-, -, hverify, -, -, -, v, -, ht⟩ := stop_eq_ok hstop
    subst hinput ht
    obtain rfl := StopCause.authenticated.inj (Option.some.inj hcause)
    exact (hs.abort hadmits hverify).grows hgrows

end Commit

theorem Sound.party_setHost (hs : sys.Sound parties activation) (hi : i ∈ parties.correct)
    (hadmits : sys.Admits parties i input)
    (ht : Host.Transition (parties.keys i) (sys.host i) input h) (answers : List Answer) :
    Party parties activation (sys.setHost i h answers) i h := by
  have hp := hs.party i hi
  have hgrows := grows_setHost answers ht
  have hsound := ht.sound hp.sound
  have hhistories := ht.histories hp.sound hp.histories
  cases ht with
  | quiet live hlive =>
    have hp' := hp.grows hgrows
    exact ⟨hsound, hhistories, hp'.binding, hp'.certified, hp'.staged, hp'.stopped⟩
  | @commit next change db hlive hcommitted hversion hwritten =>
    have hstate : ((sys.host i).record input next db).db.state = next := hwritten.state
    refine ⟨hsound, hhistories, ?_, hs.certified_commit hi hadmits hcommitted hgrows hwritten, ?_,
      ?_⟩
    · rw [hstate, hcommitted.sameExecution.binding]
      exact hp.binding
    · intro proposal hproposal k hk hsigned
      rw [hstate] at hproposal ⊢
      exact hs.staged_commit hi hadmits hcommitted hgrows hproposal hk hsigned
    · intro occurrence hcause
      rw [hstate] at hcause
      exact hs.stopped_commit hi hadmits hcommitted hgrows hcause

/-! ## Every run -/

/-- The facts behind a protocol frame that a party selects. -/
theorem Sound.justified (hs : sys.Sound parties activation) (hi : i ∈ parties.correct)
    (hselected : Selected (sys.host i).db.state frame) : sys.Justified parties i frame := by
  have hp := hs.party i hi
  have hpeer := parties.peerId_keys i hi
  cases hselected with
  | @certificate certificate hcertificate =>
    obtain ⟨entries, hledger, hsigned⟩ := hp.certified
    refine hsigned certificate.commitment (List.mem_of_getLast? ?_)
    have hlast := hledger.lastCertificate
    rw [hcertificate, hp.binding] at hlast
    exact hlast.symm
  | message hproposal hevent => trivial
  | signature hproposal hx hproducer =>
    have hsigned := hasSigned_of_mem hx
    rw [hproducer, hp.sound.producer, hpeer] at hsigned
    exact hp.staged _ hproposal i hi hsigned
  | abort hcause => exact hp.stopped _ hcause

theorem Sound.justified_sends (hs : sys.Sound parties activation) (hi : i ∈ parties.correct)
    {peer : PeerId}
    (hsends : sends (sys.host i).db.state peer frame = true) : sys.Justified parties i frame := by
  cases frame with
  | direct seq msg attachment => trivial
  | _ => exact hs.justified hi (.of_deliverFrames (of_decide_eq_true hsends))

theorem Sound.step {action : Action} (hs : sys.Sound parties activation)
    (hstep : Step parties sys action sys') : sys'.Sound parties activation := by
  cases hstep with
  | idle => exact hs
  | @input i input host result nowMs hi hadmits hhandle =>
    have ht := (hs.party i hi).sound.transition nowMs input
    rw [hhandle] at ht
    have hgrows := grows_setHost (answered i input result ++ sys.answers) ht
    refine ⟨?_, fun packet hpacket => ⟨(hs.packets packet hpacket).1,
      (hs.packets packet hpacket).2.grows hgrows⟩⟩
    intro k hk
    by_cases hki : k = i
    · subst hki
      simpa [setHost] using hs.party_setHost hi hadmits ht _
    · simpa [setHost, hki] using (hs.party k hk).grows hgrows
  | @send packet s hsource hlive hsends =>
    have hgrows : sys.Grows { sys with packets := packet :: sys.packets } :=
      ⟨fun k => List.Subset.refl _, fun k => List.Subset.refl _⟩
    refine ⟨fun k hk => (hs.party k hk).grows hgrows, ?_⟩
    intro p hp
    rcases List.mem_cons.1 hp with rfl | hp
    · obtain rfl := (hs.party _ hsource).sound.live_eq hlive
      exact ⟨hsource, (hs.justified_sends hsource hsends).grows hgrows⟩
    · exact ⟨(hs.packets p hp).1, (hs.packets p hp).2.grows hgrows⟩
  | @route packet result hrecipient hdelivers hroute =>
    have hgrows : sys.Grows { sys with answers := ⟨packet, result⟩ :: sys.answers } :=
      ⟨fun k => List.Subset.refl _, fun k => List.Subset.refl _⟩
    exact ⟨fun k hk => (hs.party k hk).grows hgrows, fun p hp =>
      ⟨(hs.packets p hp).1, (hs.packets p hp).2.grows hgrows⟩⟩

/-- A step changes the host of a party by an input of that party only. -/
theorem Step.host_eq {action : Action} (hstep : Step parties sys action sys') (i : PeerId) :
    sys'.host i = sys.host i ∨ i ∈ parties.correct ∧ ∃ nowMs input,
      action = .input i nowMs input ∧ sys.Admits parties i input ∧
        sys'.host i = ((sys.host i).handle (parties.keys i) nowMs input).1 := by
  cases hstep with
  | @input k input host result nowMs hk hadmits hhandle =>
    by_cases hki : i = k
    · subst hki
      exact .inr ⟨hk, nowMs, input, rfl, hadmits, by simp [hhandle]⟩
    · exact .inl (by simp [hki])
  | _ => exact .inl rfl

/-- What every transition of a host keeps holds of the host of a party after a run. -/
theorem Sound.run_host {P : Host κ → Prop} (hs : sys.Sound parties activation)
    (hi : i ∈ parties.correct) (hP : P (sys.host i))
    (hkeep : ∀ {h h' : Host κ} {input : Input}, h.Sound (parties.keys i) → P h →
      Host.Transition (parties.keys i) h input h' → P h') (actions : List Action) :
    P ((sys.run parties actions).host i) := by
  have hrun := run_induction parties
    (P := fun sys => sys.Sound parties activation ∧ P (sys.host i)) ⟨hs, hP⟩
    (fun hsys _ hstep => ⟨hsys.1.step hstep, by
      rcases hstep.host_eq i with hsame | ⟨-, nowMs, input, -, -, hhandle⟩
      · rw [hsame]
        exact hsys.2
      · have hp := hsys.1.party i hi
        rw [hhandle]
        exact hkeep hp.sound hsys.2 (hp.sound.transition nowMs input)⟩)
    (allSteps_true parties sys actions)
  exact hrun.2

theorem Initial.sound (hinitial : Initial parties activation sys) :
    sys.Sound parties activation := by
  refine ⟨?_, ?_⟩
  · intro i hi
    obtain ⟨db, hcreated, rfl, hhost⟩ := hinitial.created i hi
    rw [hhost]
    have hsound := hcreated.sound
    have hhistories := hcreated.histories
    have hbinding : db.state.binding = ⟨db.activation⟩ := by
      rw [show db.activation = db.state.binding.activation from hsound.activation]
    obtain ⟨hproposal, hstatus, hstep, -⟩ := hcreated.fresh
    refine ⟨hsound, hhistories, hbinding, ?_, ?_, ?_⟩
    · obtain ⟨entries, hledger⟩ := hsound.ledger
      obtain rfl : entries = [] := by
        have hlength := hledger.certified.nextStep_toNat
        rw [show (Host.initial db).db.state.stepCursor.nextStep = 0 from hstep] at hlength
        exact List.length_eq_zero_iff.1 hlength.symm
      exact ⟨[], hledger, fun c hc => (nomatch hc)⟩
    · intro proposal h
      cases hproposal.symm.trans h
    · intro occurrence hcause
      rw [show (Host.initial db).db.state.status = .activating from hstatus] at hcause
      cases hcause
  · rw [hinitial.packets]
    exact fun packet hpacket => (nomatch hpacket)

/-- Every session a run reaches is sound. -/
theorem Initial.run_sound (hinitial : Initial parties activation sys) (actions : List Action) :
    (sys.run parties actions).Sound parties activation :=
  run_induction parties hinitial.sound (fun hs _ hstep => hs.step hstep)
    (allSteps_true parties sys actions)

/-! ## Agreement -/

theorem Sound.histories (hs : sys.Sound parties activation) (hi : i ∈ parties.correct) :
    Signed i (sys.host i).db.state ((sys.host i).signed i) ∧
      ∀ occurrence ∈ (sys.host i).stops, ∀ c ∈ (sys.host i).signed i,
        c.step.toNat < occurrence.coordinate.nextStep.toNat := by
  have hsigned := (hs.party i hi).histories.signed
  have hstops := (hs.party i hi).histories.stops
  rw [parties.peerId_keys i hi] at hsigned hstops
  exact ⟨hsigned, fun occurrence hmem => (hstops occurrence hmem).2.2⟩

/-- Two parties hold the same commitment for a step both have certified. -/
theorem Sound.commitment_eq (hs : sys.Sound parties activation) (hi : i ∈ parties.correct)
    {c d : StepCommitment} (hc : sys.SignedByAll parties c) (hd : sys.SignedByAll parties d)
    (hstep : c.step = d.step) : c = d := by
  exact (hs.histories hi).1.unique c (hc i hi) d (hd i hi) hstep

structure Traced (parties : Parties) (activation : Activation κ) (sys : Session κ) (h : Host κ)
    (entries : List TraceEntry) : Prop where
  ledger : h.db.Ledger entries
  certified : CertifiedTrace ⟨activation⟩ entries h.db.state.stepCursor
  signed : ∀ c ∈ traceCommitments κ activation.sessionHash chainStart entries,
    sys.SignedByAll parties c

theorem Sound.traced (hs : sys.Sound parties activation) (hi : i ∈ parties.correct) :
    ∃ entries, Traced parties activation sys (sys.host i) entries := by
  have hp := hs.party i hi
  obtain ⟨entries, hledger, hsigned⟩ := hp.certified
  have hcertified := hledger.certified
  rw [hp.binding] at hcertified
  exact ⟨entries, hledger, hcertified, hsigned⟩

theorem Traced.length {entries : List TraceEntry}
    (h : Traced parties activation sys (sys.host i) entries) :
    entries.length = (sys.host i).db.state.agreedStep.toNat := h.certified.nextStep_toNat.symm

section

variable {entries entries' : List TraceEntry} (hs : sys.Sound parties activation)
  (hi : i ∈ parties.correct) (ht : Traced parties activation sys (sys.host i) entries)
  (ht' : Traced parties activation sys (sys.host j) entries')

include hs hi ht ht'

theorem Sound.commitments_agree (n : ℕ) (c d : StepCommitment)
    (hc : (traceCommitments κ activation.sessionHash chainStart entries)[n]? = some c)
    (hd : (traceCommitments κ activation.sessionHash chainStart entries')[n]? = some d) :
    c = d := by
  refine hs.commitment_eq hi (ht.signed c (List.mem_of_getElem? hc))
    (ht'.signed d (List.mem_of_getElem? hd)) (UInt64.toNat_inj.1 ?_)
  rw [ht.certified.step_commitment hc, ht'.certified.step_commitment hd]

/-- Without a collision the entries of their common steps are the same. -/
theorem Sound.entries_agree (hinj : Set.InjOn κ.blake3
      {bytes | ∃ e ∈ entries ++ entries', bytes = TraceEntry.codec.encode e.normalized})
    (n : ℕ) (e f : TraceEntry) (he : entries[n]? = some e) (hf : entries'[n]? = some f) :
    e.normalized = f.normalized :=
  ht.certified.normalized_eq ht'.certified hinj (fun x hx => ⟨x, hx, rfl⟩) he hf
    (hs.commitments_agree hi ht ht' n)

end

theorem Sound.signed_step {n : ℕ} (hs : sys.Sound parties activation) (hi : i ∈ parties.correct)
    (hn : n < (sys.host i).db.state.agreedStep.toNat) :
    ∃ c, c.step.toNat = n ∧ sys.SignedByAll parties c := by
  obtain ⟨entries, ht⟩ := hs.traced hi
  have hlt : n < (traceCommitments κ activation.sessionHash chainStart entries).length := by
    rw [length_traceCommitments, ht.length]
    exact hn
  have hc := List.getElem?_eq_getElem hlt
  exact ⟨_, ht.certified.step_commitment hc, ht.signed _ (List.mem_of_getElem? hc)⟩

/-- The cursor at which a party stopped was certified by nobody when all participants are
parties. -/
theorem Sound.agreedStep_le {cause : StopCause} (hs : sys.Sound parties activation)
    (hall : ∀ k, (⟨activation⟩ : ExecutionBinding κ).isParticipant k = true → k ∈ parties.correct)
    (hi : i ∈ parties.correct) (hj : j ∈ parties.correct)
    (hcause : (sys.host i).db.state.status.terminalCause = some cause) :
    (sys.host j).db.state.agreedStep.toNat ≤ (sys.host i).db.state.agreedStep.toNat := by
  by_contra hlt
  have hp := hs.party i hi
  obtain ⟨c, hstep, hsigned⟩ := hs.signed_step (n := (sys.host i).db.state.agreedStep.toNat) hj
    (by omega)
  cases (hs.histories hi).1.pledged c (hsigned i hi) with
  | agreed h => omega
  | staged hproposal _ _ =>
    rw [hp.sound.recoverable.terminal (isTerminal_of_terminalCause hcause)] at hproposal
    cases hproposal
  | @stopped occurrence _ hcause' =>
    -- the issuer of the adopted stop had not signed this step and never signs it afterwards
    obtain ⟨hsender, hcoordinate, bytes, hbytes⟩ := hp.sound.recoverable.stopped hcause'
    rw [hp.binding] at hsender
    have hk := hall _ hsender
    obtain ⟨issued, hissued, heq⟩ := hp.stopped _ hcause' hk
    have hlt' := (hs.histories hk).2 issued hissued c (hsigned _ hk)
    rw [AbortOccurrence.coordinate_eq (heq.trans hbytes) hbytes, hcoordinate] at hlt'
    have hnext : (sys.host i).db.state.stepCursor.nextStep = (sys.host i).db.state.agreedStep := rfl
    rw [hnext] at hlt'
    omega

theorem Reachable.sound (hr : sys.Reachable parties activation) : sys.Sound parties activation := by
  obtain ⟨start, actions, hinitial, rfl⟩ := hr
  exact hinitial.run_sound actions

end Session

/-- Step agreement: any two parties have certified the same commitment for every step both have
certified, with the same state, link and entry; and when all participants run this code, nobody
has certified the step at whose cursor a participant is stopped. -/
theorem step_agreement {parties : Parties} {activation : Activation κ} {sys : Session κ}
    (hr : sys.Reachable parties activation) :
    (∀ i ∈ parties.correct, ∀ j ∈ parties.correct, ∃ entries entries',
      (sys.host i).db.loadAgreedTrace (sys.host i).db.state = .ok entries ∧
      (sys.host j).db.loadAgreedTrace (sys.host j).db.state = .ok entries' ∧
      entries.length = (sys.host i).db.state.agreedStep.toNat ∧
      entries'.length = (sys.host j).db.state.agreedStep.toNat ∧
      (∀ (n : ℕ) (c d : StepCommitment),
        (traceCommitments κ activation.sessionHash chainStart entries)[n]? = some c →
        (traceCommitments κ activation.sessionHash chainStart entries')[n]? = some d → c = d) ∧
      ((sys.host i).db.state.agreedStep = (sys.host j).db.state.agreedStep →
        (sys.host i).db.state.agreedState = (sys.host j).db.state.agreedState ∧
        (sys.host i).db.state.agreedLink = (sys.host j).db.state.agreedLink) ∧
      (Set.InjOn κ.blake3
          {bytes | ∃ e ∈ entries ++ entries', bytes = TraceEntry.codec.encode e.normalized} →
        ∀ (n : ℕ) (e f : TraceEntry), entries[n]? = some e → entries'[n]? = some f →
          e.normalized = f.normalized)) ∧
    ((∀ k, (⟨activation⟩ : ExecutionBinding κ).isParticipant k = true → k ∈ parties.correct) →
      ∀ i ∈ parties.correct, ∀ j ∈ parties.correct, ∀ cause,
        (sys.host i).db.state.status.terminalCause = some cause →
          (sys.host j).db.state.agreedStep.toNat ≤ (sys.host i).db.state.agreedStep.toNat) := by
  have hs := hr.sound
  refine ⟨?_, fun hall i hi j hj cause hcause => hs.agreedStep_le hall hi hj hcause⟩
  intro i hi j hj
  obtain ⟨entries, ht⟩ := hs.traced hi
  obtain ⟨entries', ht'⟩ := hs.traced hj
  have hcommitments := hs.commitments_agree hi ht ht'
  refine ⟨entries, entries', ht.ledger.loadAgreedTrace_eq_ok, ht'.ledger.loadAgreedTrace_eq_ok,
    ht.length, ht'.length, hcommitments, ?_, hs.entries_agree hi ht ht'⟩
  intro hstep
  have hlength : entries.length = entries'.length := by rw [ht.length, ht'.length, hstep]
  have hcursor := ht.certified.cursor_eq ht'.certified hlength hcommitments
  exact ⟨congrArg StepCursor.stateHash hcursor, congrArg StepCursor.chainHash hcursor⟩

/-- Both participants of the reference session have certified its start. -/
def Sample.startedSession : Session referencePrimitives :=
  Sample.session.run Sample.parties (Sample.signStart 1 ++ Sample.signStart 2 ++
    [Sample.sendStart 1 2, Sample.sendStart 2 1, Sample.deliverStart 1 2, Sample.deliverStart 2 1])

open Sample in
theorem step_agreement_started :
    (startedSession.host (peer 1)).db.state.agreedLink =
        (startedSession.host (peer 2)).db.state.agreedLink ∧
      ∃ e f, (startedSession.host (peer 1)).db.loadAgreedTrace
          (startedSession.host (peer 1)).db.state = .ok [e] ∧
        (startedSession.host (peer 2)).db.loadAgreedTrace
          (startedSession.host (peer 2)).db.state = .ok [f] ∧
        e.normalized = f.normalized := by
  have hr : startedSession.Reachable parties activation :=
    ⟨_, _, initial_session, rfl⟩
  have hall := step_agreement hr
  obtain ⟨entries, entries', hload, hload', hlength, hlength', -, hcursor, hentry⟩ :=
    hall.1 (peer 1) (by decide) (peer 2) (by decide)
  have hsteps : (startedSession.host (peer 1)).db.state.agreedStep = 1 ∧
      (startedSession.host (peer 2)).db.state.agreedStep = 1 := by decide +kernel
  rw [hsteps.1] at hlength
  rw [hsteps.2] at hlength'
  obtain ⟨e, rfl⟩ := List.length_eq_one_iff.1 hlength
  obtain ⟨f, rfl⟩ := List.length_eq_one_iff.1 hlength'
  refine ⟨(hcursor (hsteps.1.trans hsteps.2.symm)).2, e, f, hload, hload', ?_⟩
  have hbytes : TraceEntry.codec.encode e.normalized = TraceEntry.codec.encode f.normalized := by
    have heq : ((startedSession.host (peer 1)).db.loadAgreedTrace
        (startedSession.host (peer 1)).db.state).map
          (·.map fun e => TraceEntry.codec.encode e.normalized) =
        ((startedSession.host (peer 2)).db.loadAgreedTrace
        (startedSession.host (peer 2)).db.state).map
          (·.map fun e => TraceEntry.codec.encode e.normalized) := by decide +kernel
    rw [hload, hload'] at heq
    simpa [Except.map] using heq
  refine hentry ?_ 0 e f rfl rfl
  rintro _ ⟨x, hx, rfl⟩ _ ⟨y, hy, rfl⟩ -
  have hone : ∀ z ∈ [e] ++ [f], TraceEntry.codec.encode z.normalized =
      TraceEntry.codec.encode f.normalized := by
    intro z hz
    rcases List.mem_pair.1 hz with rfl | rfl
    · exact hbytes
    · rfl
  rw [hone x hx, hone y hy]

end Arena0
