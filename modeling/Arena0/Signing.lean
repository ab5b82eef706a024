import Arena0.ReferenceHost

/-!
# What a participant has signed

The journal of a host determines the commitments its participant has signed and
the stops it has issued.  A signature is persisted before it is sent and binds the
participant: its step holds one commitment only, the participant does not stop at
that step by itself, and a stopped participant signs nothing more.
-/

namespace Arena0

open Borsh Fallible Actor ExecutionState

variable {κ : Primitives}

/-! ## Histories -/

/-- The commitment that a transition signs under a participant's name. -/
def Record.signs (me : PeerId) (r : Record κ) : Option StepCommitment :=
  if r.input.signer me = some me then r.before.proposalCommitment else none

def Record.stops (r : Record κ) : Option AbortOccurrence :=
  match r.input, r.next.status with
  | .stop .., .stopped (.authenticated occurrence) => some occurrence
  | _, _ => none

/-- The commitments a participant has signed, the last one first. -/
def Host.signed (me : PeerId) (h : Host κ) : List StepCommitment :=
  h.journal.filterMap (Record.signs me)

def Host.stops (h : Host κ) : List AbortOccurrence := h.journal.filterMap Record.stops

variable {s : ExecutionState κ} {input : Input} {occurrence : AbortOccurrence} {change : Change κ}

theorem Committed.stops_eq_some {keys : HostKeys} {db : Db κ} {t : ExecutionState κ}
    (h : Committed keys db s input t change)
    (hstops : Record.stops ⟨s, input, t⟩ = some occurrence) :
    input.signer keys.peerId = none ∧ occurrence.sender = keys.peerId ∧
      s.stop occurrence = .ok t := by
  cases h with
  | @stop _ _ _ _ o hsender hstop =>
    obtain ⟨-, -, -, -, -, -, v, -, rfl⟩ := stop_eq_ok hstop
    obtain rfl : o = occurrence := Option.some.inj hstops
    exact ⟨rfl, hsender, hstop⟩
  | dispatch hinput h => cases input <;> first | cases hstops | cases hinput
  | _ => cases hstops

/-! ## Proposals under one signature more -/

variable {proposal : SharedProposal κ} {c : StepCommitment} {x : ParticipantStepSignature}
  {certificate : StepCertificate} {b : ExecutionBinding κ}

theorem hasSigned_addSignature {signed : SharedProposal κ} {peer : PeerId}
    (h : proposal.addSignature b c x = .ok signed) :
    hasSigned signed peer = true ↔ x.participant = peer ∨ hasSigned proposal peer = true := by
  obtain ⟨-, -, rfl⟩ := SharedProposal.addSignature_eq_ok h
  simp only [hasSigned, List.any_eq_true, List.mem_insertionSort, List.mem_append,
    List.mem_singleton, decide_eq_true_eq]
  constructor
  · rintro ⟨y, hy | rfl, hpeer⟩
    · exact .inr ⟨y, hy, hpeer⟩
    · exact .inl hpeer
  · rintro (hpeer | ⟨y, hy, hpeer⟩)
    · exact ⟨x, .inr rfl, hpeer⟩
    · exact ⟨y, .inl hy, hpeer⟩

theorem not_hasSigned_of_addSignature {signed : SharedProposal κ}
    (h : proposal.addSignature b c x = .ok signed) : hasSigned proposal x.participant = false := by
  obtain ⟨hnew, -, -⟩ := SharedProposal.addSignature_eq_ok h
  simpa [hasSigned] using hnew

theorem commitmentFor_addSignature {signed : SharedProposal κ}
    (h : proposal.addSignature b c x = .ok signed) :
    s.commitmentFor signed = s.commitmentFor proposal := by
  obtain ⟨-, -, rfl⟩ := SharedProposal.addSignature_eq_ok h
  rfl

theorem ExecutionState.Recoverable.step_proposal (h : s.Recoverable)
    (hproposal : s.proposal = some proposal) : (s.commitmentFor proposal).step = s.agreedStep := by
  obtain ⟨hstaged, -⟩ := validateProposal_eq_ok.1 (h.proposal proposal hproposal).valid
  obtain ⟨next, hadvance, -⟩ := hstaged.advances
  exact (StepCursor.advance_eq_ok.1 hadvance).2.1

theorem Certifies.step_eq {t : ExecutionState κ} (h : Certifies s t proposal certificate) :
    certificate.commitment.step = s.agreedStep := by
  obtain ⟨next, _, _, hadvance, -⟩ := h.next
  exact (StepCursor.advance_eq_ok.1 hadvance).2.1

theorem Certifies.agreedStep {t : ExecutionState κ} (h : Certifies s t proposal certificate) :
    t.agreedStep.toNat = s.agreedStep.toNat + 1 ∧ t.proposal = none := by
  have hstep := h.step_eq
  obtain ⟨next, _, _, hadvance, -, -, rfl⟩ := h.next
  rw [← hstep]
  exact ⟨StepCursor.advance_toNat hadvance, rfl⟩

/-! ## The invariant -/

/-- Where a signed commitment is now: agreed, staged under the signature, or left behind by
another participant's stop. -/
inductive Pledged (me : PeerId) (s : ExecutionState κ) (c : StepCommitment) : Prop
  | agreed (h : c.step.toNat < s.agreedStep.toNat)
  | staged {proposal : SharedProposal κ} (hproposal : s.proposal = some proposal)
      (hsigned : hasSigned proposal me = true) (hc : s.commitmentFor proposal = c)
  | stopped {occurrence : AbortOccurrence} (hstep : c.step = s.agreedStep)
      (hcause : s.status.terminalCause = some (.authenticated occurrence))

/-- How an aggregate and the commitments its participant has signed relate. -/
structure Signed (me : PeerId) (s : ExecutionState κ) (signed : List StepCommitment) : Prop where
  staged : ∀ proposal, s.proposal = some proposal → hasSigned proposal me = true →
    s.commitmentFor proposal ∈ signed
  pledged : ∀ c ∈ signed, Pledged me s c
  unique : ∀ c ∈ signed, ∀ d ∈ signed, c.step = d.step → c = d

theorem Pledged.step_le {me : PeerId} (h : Pledged me s c) (hs : s.Recoverable) :
    c.step.toNat ≤ s.agreedStep.toNat := by
  cases h with
  | agreed h => omega
  | staged hproposal hsigned hc => rw [← hc, hs.step_proposal hproposal]
  | stopped hstep hcause => rw [hstep]

theorem terminalCause_of_running {status : ExecutionStatus κ} (h : status.isTerminal = false) :
    status.terminalCause = none := by
  cases status <;> first | rfl | cases h

/-- A commitment whose step an unsigned running aggregate still has to agree was not signed. -/
private theorem Pledged.step_lt {me : PeerId} (h : Pledged me s c)
    (hrunning : s.status.isTerminal = false)
    (hunsigned : ∀ proposal, s.proposal = some proposal → hasSigned proposal me = false) :
    c.step.toNat < s.agreedStep.toNat := by
  cases h with
  | agreed h => exact h
  | staged hproposal hsigned hc =>
    rw [hunsigned _ hproposal] at hsigned
    cases hsigned
  | stopped hstep hcause =>
    rw [terminalCause_of_running hrunning] at hcause
    cases hcause

variable {me : PeerId} {s t : ExecutionState κ} {signed : List StepCommitment} {frame : ExecFrame}

theorem Signed.cons (h : Signed me s signed) (hs : s.Recoverable)
    (hproposal : s.proposal = some proposal) (hunsigned : hasSigned proposal me = false) :
    ∀ c ∈ s.commitmentFor proposal :: signed, ∀ d ∈ s.commitmentFor proposal :: signed,
      c.step = d.step → c = d := by
  have hlt : ∀ c ∈ signed, c.step ≠ (s.commitmentFor proposal).step := by
    intro c hc heq
    have hstep := (h.pledged c hc).step_lt (hs.running hproposal) (by
      intro p hp
      rw [hproposal] at hp
      cases hp
      exact hunsigned)
    rw [heq, hs.step_proposal hproposal] at hstep
    omega
  intro c hc d hd heq
  rcases List.mem_cons.1 hc with rfl | hc
  · rcases List.mem_cons.1 hd with rfl | hd
    · rfl
    · exact absurd heq.symm (hlt d hd)
  · rcases List.mem_cons.1 hd with rfl | hd
    · exact absurd heq (hlt c hc)
    · exact h.unique c hc d hd heq

theorem Signed.certified {signed' : List StepCommitment}
    (hcertifies : Certifies s t proposal certificate)
    (hle : ∀ c ∈ signed', c.step.toNat ≤ s.agreedStep.toNat)
    (hunique : ∀ c ∈ signed', ∀ d ∈ signed', c.step = d.step → c = d) : Signed me t signed' := by
  obtain ⟨hstep, hnone⟩ := hcertifies.agreedStep
  refine ⟨?_, ?_, hunique⟩
  · intro p hp
    rw [hnone] at hp
    cases hp
  · intro c hc
    have hc' := hle c hc
    exact .agreed (by omega)

private theorem Pledged.keep (h : Pledged me s c) (hbinding : t.binding = s.binding)
    (hcursor : t.stepCursor = s.stepCursor)
    (hproposal : ∀ p, s.proposal = some p → hasSigned p me = true →
      ∃ q, t.proposal = some q ∧ hasSigned q me = true ∧ q.entry = p.entry)
    (hcause : ∀ cause, s.status.terminalCause = some cause →
      t.status.terminalCause = some cause) : Pledged me t c := by
  have hstep : t.agreedStep = s.agreedStep := congrArg StepCursor.nextStep hcursor
  have hlink : t.agreedLink = s.agreedLink := congrArg StepCursor.chainHash hcursor
  cases h with
  | agreed h => exact .agreed (by rw [hstep]; exact h)
  | @staged p hp hsigned hc =>
    obtain ⟨q, hq, hsigned', hentry⟩ := hproposal p hp hsigned
    refine .staged hq hsigned' ?_
    rw [← hc, commitmentFor, commitmentFor, hbinding, hlink, hentry]
  | stopped hc hstopped => exact .stopped (hc.trans hstep.symm) (hcause _ hstopped)

theorem Signed.signature {signed' : SharedProposal κ} (version : UInt64) (h : Signed me s signed)
    (hs : s.Recoverable) (hproposal : s.proposal = some proposal)
    (hadd : proposal.addSignature s.binding (s.commitmentFor proposal) x = .ok signed') :
    Signed me { s with proposal := some signed', version := version }
      ((if some x.participant = some me then s.proposalCommitment else none).toList ++ signed) := by
  have hstaged : s.proposalCommitment = some (s.commitmentFor proposal) := by
    rw [proposalCommitment, hproposal]
    rfl
  have hcommitment : s.commitmentFor signed' = s.commitmentFor proposal :=
    commitmentFor_addSignature hadd
  have hentry : signed'.entry = proposal.entry := by
    obtain ⟨-, -, rfl⟩ := SharedProposal.addSignature_eq_ok hadd
    rfl
  have hkeep : ∀ c ∈ signed, Pledged me { s with proposal := some signed', version := version } c := by
    intro c hc
    refine (h.pledged c hc).keep rfl rfl ?_ (fun _ hcause => hcause)
    intro p hp hsigned
    rw [hproposal] at hp
    cases hp
    exact ⟨signed', rfl, (hasSigned_addSignature hadd).2 (.inr hsigned), hentry⟩
  by_cases hme : x.participant = me
  · rw [if_pos (congrArg some hme), hstaged]
    have hunsigned := not_hasSigned_of_addSignature hadd
    rw [hme] at hunsigned
    refine ⟨?_, ?_, h.cons hs hproposal hunsigned⟩
    · intro p hp hsigned
      cases hp
      exact List.mem_cons.2 (.inl hcommitment)
    · intro c hc
      rcases List.mem_cons.1 hc with rfl | hc
      · exact .staged rfl ((hasSigned_addSignature hadd).2 (.inl hme)) hcommitment
      · exact hkeep c hc
  · rw [if_neg (by simpa using hme)]
    refine ⟨?_, hkeep, h.unique⟩
    intro p hp hsigned
    cases hp
    have hbefore := ((hasSigned_addSignature hadd).1 hsigned).resolve_left hme
    rw [show ({ s with proposal := some signed', version := version } :
      ExecutionState κ).commitmentFor signed' = s.commitmentFor signed' from rfl, hcommitment]
    exact h.staged proposal hproposal hbefore

theorem Signed.stop (h : Signed me s signed) (hs : s.Recoverable)
    (hstop : s.stop occurrence = .ok t) : Signed me t signed := by
  obtain ⟨-, -, -, -, -, -, v, -, rfl⟩ := stop_eq_ok hstop
  refine ⟨fun p hp => (nomatch hp), ?_, h.unique⟩
  intro c hc
  rcases Nat.lt_or_eq_of_le ((h.pledged c hc).step_le hs) with hlt | heq
  · exact .agreed hlt
  · exact .stopped (UInt64.toNat_inj.1 heq) rfl

/-- One transition keeps the relation between the aggregate and the signed commitments. -/
theorem Signed.progress (h : Signed me s signed)
    (hs : s.Recoverable) (hsame : SameExecution s t)
    (hprogress : Progress me s input t change) :
    Signed me t
      ((if input.signer me = some me then s.proposalCommitment else none).toList ++ signed) := by
  cases hprogress with
  | quiet hsigner hcursor hbytes hcertificate hproposal hstatus hchange =>
    have hlink : t.agreedLink = s.agreedLink := congrArg StepCursor.chainHash hcursor
    rw [hsigner]
    refine ⟨?_, ?_, h.unique⟩
    · intro p hp hsigned
      rw [commitmentFor, hsame.binding, hlink]
      exact h.staged p (hproposal ▸ hp) hsigned
    · intro c hc
      refine (h.pledged c hc).keep hsame.binding hcursor ?_ ?_
      · intro p hp hsigned
        exact ⟨p, hproposal.trans hp, hsigned, rfl⟩
      · intro cause hcause
        rcases hstatus with hstatus | ⟨hactivating, -⟩
        · rw [← ExecutionStatus.terminalCause_unpublished, hstatus,
            ExecutionStatus.terminalCause_unpublished]
          exact hcause
        · rw [hactivating] at hcause
          cases hcause
  | staged hsigner hnone hactive hstaged ht =>
    subst ht
    rw [hsigner]
    refine ⟨?_, ?_, h.unique⟩
    · intro p hp hsigned
      cases hp
      simp [hasSigned, hstaged.signatures_eq] at hsigned
    · intro c hc
      refine (h.pledged c hc).keep rfl rfl ?_ (fun _ hcause => hcause)
      intro p hp
      rw [hnone] at hp
      cases hp
  | signed hsigner hproposal hadd ht =>
    subst ht
    rw [hsigner]
    exact h.signature _ hs hproposal hadd
  | completed hsigner hproposal hadd hcomplete hcertifies =>
    rw [hsigner]
    refine Signed.certified hcertifies ?_ (h.signature s.version hs hproposal hadd).unique
    intro c hc
    rcases List.mem_append.1 hc with hc | hc
    · split at hc
      · rw [proposalCommitment, hproposal] at hc
        obtain rfl := List.mem_singleton.1 hc
        rw [hs.step_proposal hproposal]
      · cases hc
    · exact (h.pledged c hc).step_le hs
  | certified hinput hproposal hcertifies =>
    subst hinput
    exact Signed.certified hcertifies (fun c hc => (h.pledged c hc).step_le hs) h.unique
  | stopped hinput hsender hstop =>
    subst hinput
    exact h.stop hs hstop
  | aborted hinput hstop =>
    subst hinput
    exact h.stop hs hstop

/-! ## Terminal executions -/

theorem Progress.of_terminal (hs : s.Recoverable)
    (hterminal : s.status.isTerminal = true) (h : Progress me s input t change) :
    input.signer me = none ∧ t.stepCursor = s.stepCursor ∧ t.lastCertificate = s.lastCertificate ∧
      t.status.unpublished = s.status.unpublished := by
  have hproposal := hs.terminal hterminal
  cases h with
  | quiet hsigner hcursor hbytes hcertificate hproposal' hstatus hchange =>
    refine ⟨hsigner, hcursor, hcertificate, ?_⟩
    rcases hstatus with hstatus | ⟨hactivating, -⟩
    · exact hstatus
    · rw [hactivating] at hterminal
      cases hterminal
  | staged _ hnone hactive hstaged ht =>
    rw [hactive] at hterminal
    cases hterminal
  | stopped _ _ hstop | aborted _ hstop =>
    obtain ⟨-, -, -, -, hrunning, -⟩ := stop_eq_ok hstop
    rw [hrunning] at hterminal
    cases hterminal
  | signed _ hsome | completed _ hsome | certified _ hsome =>
    rw [hproposal] at hsome
    cases hsome

theorem isTerminal_of_terminalCause {status : ExecutionStatus κ} {cause : StopCause}
    (h : status.terminalCause = some cause) : status.isTerminal = true := by
  cases status <;> first | rfl | cases h

namespace Host

structure Histories (keys : HostKeys) (h : Host κ) : Prop where
  signed : Signed keys.peerId h.db.state (h.signed keys.peerId)
  stops : ∀ occurrence ∈ h.stops, occurrence.sender = keys.peerId ∧
    h.db.state.status.terminalCause = some (.authenticated occurrence) ∧
    ∀ c ∈ h.signed keys.peerId, c.step.toNat < occurrence.coordinate.nextStep.toNat

theorem signed_record (me : PeerId) (h : Host κ) (input : Input) (next : ExecutionState κ)
    (db : Db κ) : (h.record input next db).signed me =
      (if input.signer me = some me then h.db.state.proposalCommitment else none).toList ++
        h.signed me := by
  rw [signed, signed, record, List.filterMap_cons, Record.signs]
  cases (if input.signer me = some me then h.db.state.proposalCommitment else none) <;> rfl

variable {h : Host κ}

theorem mem_stops_record {next : ExecutionState κ} {db : Db κ} :
    occurrence ∈ (h.record input next db).stops ↔
      Record.stops ⟨h.db.state, input, next⟩ = some occurrence ∨ occurrence ∈ h.stops := by
  rw [stops, stops, record, List.filterMap_cons]
  cases Record.stops ⟨h.db.state, input, next⟩ with
  | none => simp
  | some o => simp [eq_comm]

variable {keys : HostKeys}

theorem Transition.histories {h' : Host κ} (hs : h.Sound keys)
    (hh : h.Histories keys) (ht : Transition keys h input h') : h'.Histories keys := by
  cases ht with
  | quiet live hlive => exact ⟨hh.signed, hh.stops⟩
  | @commit next change db hlive hcommitted hversion hwritten =>
    have hprogress := hcommitted.progress
    have hstate : (h.record input next db).db.state = next := hwritten.state
    have hsigned := hh.signed.progress hs.recoverable hcommitted.sameExecution hprogress
    refine ⟨?_, ?_⟩
    · rw [signed_record]
      simpa only [hstate] using hsigned
    · intro occurrence hoccurrence
      simp only [signed_record, hstate]
      rcases mem_stops_record.1 hoccurrence with hnew | hold
      · obtain ⟨hnone, hsender, hstop⟩ := hcommitted.stops_eq_some hnew
        obtain ⟨-, -, -, hcoordinate, hrunning, hunsigned, v, -, rfl⟩ := stop_eq_ok hstop
        refine ⟨hsender, rfl, ?_⟩
        intro c hc
        simp only [hnone, reduceCtorEq, ↓reduceIte, Option.toList_none, List.nil_append] at hc
        rw [hcoordinate]
        refine (hh.signed.pledged c hc).step_lt hrunning ?_
        intro p hp
        rw [← hsender]
        exact hunsigned p hp
      · obtain ⟨hsender, hcause, hlt⟩ := hh.stops occurrence hold
        have hterminal := isTerminal_of_terminalCause hcause
        obtain ⟨hnone, -, -, hstatus⟩ := hprogress.of_terminal hs.recoverable hterminal
        refine ⟨hsender, ?_, ?_⟩
        · rw [← ExecutionStatus.terminalCause_unpublished, hstatus,
            ExecutionStatus.terminalCause_unpublished]
          exact hcause
        · simpa [hnone] using hlt

theorem Sound.run_histories (hs : h.Sound keys) (hh : h.Histories keys)
    (inputs : List (UInt64 × Input)) : (h.run keys inputs).Histories keys :=
  hs.run_transition (fun _ _ _ hs hh ht => ht.histories hs hh) hh inputs

theorem Created.histories {db : Db κ} (h : Created keys db) : (initial db).Histories keys := by
  refine ⟨⟨?_, fun c hc => (nomatch hc), fun c hc => (nomatch hc)⟩, fun o ho => (nomatch ho)⟩
  intro proposal hproposal
  cases h.fresh.1.symm.trans hproposal

theorem Reachable.histories (hr : h.Reachable keys) : h.Histories keys := by
  obtain ⟨db, inputs, hcreated, rfl⟩ := hr
  exact hcreated.sound.run_histories hcreated.histories inputs

/-- A terminal host stays terminal and signs nothing more. -/
theorem Transition.of_terminal {h' : Host κ} (hs : h.Sound keys)
    (hterminal : h.db.state.status.isTerminal = true) (ht : Transition keys h input h') :
    h'.db.state.status.isTerminal = true ∧ h'.signed keys.peerId = h.signed keys.peerId := by
  cases ht with
  | quiet live hlive => exact ⟨hterminal, rfl⟩
  | commit hlive hcommitted hversion hwritten =>
    obtain ⟨hnone, -, -, hstatus⟩ := hcommitted.progress.of_terminal hs.recoverable hterminal
    refine ⟨?_, ?_⟩
    · rw [record, hwritten.state, ← ExecutionStatus.isTerminal_unpublished, hstatus,
        ExecutionStatus.isTerminal_unpublished]
      exact hterminal
    · simp [signed_record, hnone]

theorem Sound.run_signed (hs : h.Sound keys) (hterminal : h.db.state.status.isTerminal = true)
    (inputs : List (UInt64 × Input)) :
    (h.run keys inputs).signed keys.peerId = h.signed keys.peerId := by
  induction inputs generalizing h with
  | nil => rfl
  | cons input inputs ih =>
    obtain ⟨hterminal', hsigned⟩ := (hs.transition input.1 input.2).of_terminal hs hterminal
    exact (ih (hs.handle input.1 input.2) hterminal').trans hsigned

end Host

/-! ## Frames that leave the host -/

/-- The facts behind the protocol frames a participant selects. -/
inductive Selected (s : ExecutionState κ) : ExecFrame → Prop
  | certificate {certificate : StepCertificate} (h : s.lastCertificate = some certificate) :
      Selected s (.stepCertificate certificate)
  | message {proposal : SharedProposal κ} {data : Bytes} (hproposal : s.proposal = some proposal)
      (hevent : proposal.entry.event = .message s.producer data) :
      Selected s (.message (s.commitmentFor proposal) data)
  | signature {proposal : SharedProposal κ} {x : ParticipantStepSignature}
      (hproposal : s.proposal = some proposal) (hx : x ∈ proposal.signatures)
      (hproducer : x.participant = s.producer) :
      Selected s (.stepSignature (s.commitmentFor proposal) x.signature.sig)
  | abort {occurrence : AbortOccurrence}
      (h : s.status.terminalCause = some (.authenticated occurrence)) :
      Selected s (.abort occurrence)

theorem Selected.of_terminalEvidence (h : s.terminalEvidence = some frame) : Selected s frame := by
  unfold terminalEvidence at h
  split at h
  · split at h
    · rename_i occurrence hcause
      cases h
      exact .abort hcause
    · obtain ⟨certificate, hcertificate, rfl⟩ := Option.map_eq_some_iff.1 h
      exact .certificate hcertificate
  · cases h

private theorem Selected.of_currentFrames (h : frame ∈ s.currentFrames s.producer) :
    Selected s frame := by
  simp only [currentFrames, List.mem_append] at h
  rcases h with (h | h) | h
  · split at h
    · rename_i certificate hcertificate
      obtain rfl := List.mem_singleton.1 h
      exact .certificate hcertificate
    · cases h
  · split at h
    · rename_i proposal hproposal
      rcases List.mem_append.1 h with h | h
      · split at h
        · rename_i source data hevent
          split at h
          · rename_i hsource
            obtain rfl := List.mem_singleton.1 h
            exact .message hproposal (hsource ▸ hevent)
          · cases h
        · cases h
      · split at h
        · rename_i x hfind
          obtain rfl := List.mem_singleton.1 h
          exact .signature hproposal (List.mem_of_find?_eq_some hfind)
            (by simpa using List.find?_some hfind)
        · cases h
    · cases h
  · split at h
    · rename_i occurrence hcause
      obtain rfl := List.mem_singleton.1 h
      exact .abort hcause
    · cases h

theorem Selected.of_deliverFrames {peer : PeerId}
    (h : frame ∈ deliverFrames s peer) : Selected s frame := by
  unfold deliverFrames at h
  split at h
  · cases h
  split at h
  · split at h
    · split at h
      · exact .of_terminalEvidence (Option.mem_toList.1 h)
      · cases h
    · cases h
  · exact .of_currentFrames h

theorem hasSigned_of_mem (hx : x ∈ proposal.signatures) :
    hasSigned proposal x.participant = true := by
  simp only [hasSigned, List.any_eq_true, decide_eq_true_eq]
  exact ⟨x, hx, rfl⟩

/-- No equivocation: over its whole lifetime a participant signs at most one commitment for
each step, every signature it persists or sends is one of these, it never stops by itself at a
step it has signed, and once stopped it signs nothing more. -/
theorem participant_never_equivocates {keys : HostKeys} {h : Host κ} (hr : h.Reachable keys) :
    (∀ c ∈ h.signed keys.peerId, ∀ d ∈ h.signed keys.peerId, c.step = d.step → c = d) ∧
    (∀ proposal, h.db.state.proposal = some proposal → ∀ x ∈ proposal.signatures,
      x.participant = keys.peerId → h.db.state.commitmentFor proposal ∈ h.signed keys.peerId) ∧
    (∀ s, h.live = some s → ∀ peer c sig, .stepSignature c sig ∈ deliverFrames s peer →
      c ∈ h.signed keys.peerId) ∧
    (∀ occurrence ∈ h.stops, ∀ c ∈ h.signed keys.peerId,
      c.step.toNat < occurrence.coordinate.nextStep.toNat) ∧
    (∀ cause, h.db.state.status.terminalCause = some cause → ∀ inputs,
      (h.run keys inputs).signed keys.peerId = h.signed keys.peerId) := by
  have hs := hr.sound
  have hh := hr.histories
  refine ⟨hh.signed.unique, ?_, ?_, fun o ho => (hh.stops o ho).2.2, ?_⟩
  · intro proposal hproposal x hx hme
    exact hh.signed.staged proposal hproposal (hme ▸ hasSigned_of_mem hx)
  · intro s hlive peer c sig hmem
    obtain rfl := hs.live_eq hlive
    cases Selected.of_deliverFrames hmem with
    | signature hproposal hx hproducer =>
      have hme := hproducer.trans hs.producer
      exact hh.signed.staged _ hproposal (hme ▸ hasSigned_of_mem hx)
  · intro cause hcause inputs
    exact hs.run_signed (isTerminal_of_terminalCause hcause) inputs

open Sample in
theorem participant_never_equivocates_stopped :
    stoppedHost.signed (peer 1) = [startCommitment] ∧
      stoppedHost.stops.length = 1 ∧ ∀ inputs,
        (stoppedHost.run (keys 1) inputs).signed (peer 1) =
          [startCommitment] := by
  have hall := participant_never_equivocates (h := stoppedHost)
    ⟨_, _, created_one, rfl⟩
  have hrun : stoppedHost.signed (peer 1) = [startCommitment] ∧
      stoppedHost.stops.length = 1 ∧
      stoppedHost.db.state.status.terminalCause.isSome = true := by decide +kernel
  obtain ⟨hsigned, hstops, hcause⟩ := hrun
  obtain ⟨cause, hcause⟩ := Option.isSome_iff_exists.1 hcause
  refine ⟨hsigned, hstops, fun inputs => ?_⟩
  exact (hall.2.2.2.2 cause hcause inputs).trans hsigned

end Arena0
