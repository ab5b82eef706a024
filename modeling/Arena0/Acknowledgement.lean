import Arena0.Signing

/-!
# Acknowledged frames

The sender of a frame drops it once it is acknowledged, so an acknowledgement must
mean that the receiver needs the frame no more.  The aggregate alone guarantees this
of every frame but one: a message for the current step that finds an execution which
is not active yet.  The actor takes no frame before it has recovered, so no run
acknowledges that one either.
-/

namespace Arena0

open Borsh Fallible Actor ExecutionState

variable {κ : Primitives}

/-- The aggregate has taken a frame in, holds it already or is past it. -/
def Incorporated (s : ExecutionState κ) (source : PeerId) (frame : ExecFrame) : Prop :=
  s.status.isTerminal = true ∨
    match frame with
    | .message commitment _ =>
      s.proposalCommitment = some commitment ∨ commitment.step < s.agreedStep
    | .stepSignature commitment signature =>
      (∃ proposal, s.proposal = some proposal ∧ s.commitmentFor proposal = commitment ∧
        .new source commitment.step signature ∈ proposal.signatures) ∨
      commitment.step < s.agreedStep
    | .stepCertificate certificate => certificate.commitment.step < s.agreedStep
    | .direct seq _ _ => seq ≤ (s.lane source).lastApplied ∨ s.endPhase ≠ .open
    | .abort occurrence => occurrence.coordinate.nextStep < s.agreedStep

/-- A message for the agreed cursor finds an execution that is not active yet. -/
def Unstageable (s : ExecutionState κ) (frame : ExecFrame) : Prop :=
  s.status = .activating ∧ s.proposal = none ∧
    match frame with
    | .message commitment _ => commitment.step = s.agreedStep ∧
        commitment.sessionId = s.binding.sessionId ∧ commitment.preState = s.agreedState ∧
        commitment.link = s.agreedLink
    | _ => False

theorem activating_of_running {status : ExecutionStatus κ} (h : status.isTerminal = false)
    (h' : status ≠ .active) : status = .activating := by
  cases status with
  | activating => rfl
  | active => exact absurd rfl h'
  | _ => cases h

theorem eq_of_not_lt {a b : UInt64} (h : ¬ a < b) (h' : ¬ b < a) : a = b :=
  UInt64.le_antisymm (UInt64.not_lt.1 h') (UInt64.not_lt.1 h)

/-! ## Acknowledgements without a write -/

theorem dispatchEvent_done {s : ExecutionState κ} {event : Event} {source : DispatchSource}
    {reply : GuestReply} {outcome : DispatchOutcome}
    (h : dispatchEvent s event source reply = .done outcome) :
    (outcome = .frozen ∧
      (s.status.isTerminal = true ∨ s.proposal.isSome = true ∨ s.status ≠ .active)) ∨
    ∃ reason, outcome = .rejected reason := by
  unfold dispatchEvent at h
  split at h
  · cases h
  split at h
  · rename_i hfrozen
    cases h
    exact .inl ⟨rfl, hfrozen⟩
  refine .inr ?_
  unfold dispatchInner at h
  split at h
  · split at h
    · cases h
      exact ⟨_, rfl⟩
    · cases h
  · cases h
    exact ⟨_, rfl⟩
  · split at h
    · cases h
    split at h
    · unfold refusedDispatch at h
      split at h <;> cases h
      exact ⟨_, rfl⟩
    · unfold commitDispatch at h
      split at h
      · split at h
        · split at h <;> cases h
        · cases h
      · split at h <;> cases h
      all_goals cases h
  · cases h

theorem map_eq_done {α β : Type} {f : α → β} {decision : Decision κ α} {result : β}
    (h : decision.map f = .done result) : ∃ a, decision = .done a ∧ f a = result := by
  cases decision with
  | done a => exact ⟨a, rfl, Decision.done.inj h⟩
  | _ => cases h

section Done

variable {s : ExecutionState κ} {source : PeerId} {reply : GuestReply}

theorem acceptMessage_done {commitment : StepCommitment} {data : Bytes}
    (hrunning : s.status.isTerminal = false)
    (h : acceptMessage s source commitment data reply = .done none) :
    Incorporated s source (.message commitment data) ∨
      Unstageable s (.message commitment data) := by
  unfold acceptMessage at h
  split at h
  · rename_i hlt
    exact .inl (.inr (.inr hlt))
  rename_i hge
  split at h
  · cases h
  rename_i hle
  split at h
  · cases h
  rename_i hbound
  simp only [not_or, ne_eq, not_not] at hbound
  split at h
  · split at h
    · rename_i hstaged
      exact .inl (.inr (.inl hstaged.1))
    · cases h
  · rename_i hnone
    -- nothing is staged, so the dispatch did not run because the execution is not active
    obtain ⟨_, h, -⟩ := map_eq_done h
    unfold applyMessage at h
    split at h
    · cases h
    rename_i hrejected
    obtain ⟨outcome, h, -⟩ := map_eq_done h
    rcases dispatchEvent_done h with ⟨-, hterminal | hsome | hactive⟩ | ⟨reason, rfl⟩
    · rw [hrunning] at hterminal
      cases hterminal
    · rw [hnone] at hsome
      cases hsome
    · refine .inr ⟨?_, hnone, eq_of_not_lt hge hle, hbound⟩
      exact activating_of_running hrunning hactive
    · exact absurd h (hrejected _)

theorem acceptStepSignature_done {commitment : StepCommitment} {signature : BlsSignature}
    (h : acceptStepSignature s source commitment signature = .done none) :
    Incorporated s source (.stepSignature commitment signature) := by
  unfold acceptStepSignature at h
  split at h
  · rename_i hlt
    exact .inr (.inr hlt)
  split at h
  · cases h
  split at h
  · cases h
  rename_i proposal hproposal
  split at h
  · cases h
  rename_i hstaged
  dsimp only at h
  split at h
  · rename_i hmem
    refine .inr (.inl ⟨proposal, hproposal, ?_, hmem⟩)
    simpa [proposalCommitment, hproposal] using hstaged
  · split at h <;> cases h

theorem acceptStepCertificate_done {certificate : StepCertificate}
    (h : acceptStepCertificate s certificate = .done none) :
    Incorporated s source (.stepCertificate certificate) := by
  unfold acceptStepCertificate at h
  split at h
  · rename_i hlt
    exact .inr hlt
  split at h
  · cases h
  split at h
  · cases h
  split at h <;> cases h

theorem acceptDirect_done {seq : UInt64} {msg : Bytes} {attachment : Option Bytes}
    (h : acceptDirect s source seq msg attachment reply = .done none) :
    Incorporated s source (.direct seq msg attachment) := by
  unfold acceptDirect at h
  split at h
  · rename_i hended
    exact .inr (.inr hended)
  split at h
  · rename_i harrival
    refine .inr (.inl ?_)
    unfold directArrival at harrival
    dsimp only at harrival
    split at harrival
    · assumption
    · split at harrival <;> cases harrival
  · cases h
  split at h
  · cases h
  obtain ⟨outcome, h, hnone⟩ := map_eq_done h
  unfold dispatchDirect at h
  split at h
  · split at h <;> cases h
  · rename_i hrejected
    rcases dispatchEvent_done h with ⟨rfl, -⟩ | ⟨reason, rfl⟩
    · cases hnone
    · exact absurd h (hrejected _)

theorem acceptAbort_done {occurrence : AbortOccurrence}
    (h : acceptAbort s occurrence = .done none) : Incorporated s source (.abort occurrence) := by
  unfold acceptAbort at h
  split at h
  · rename_i hlt
    exact .inr hlt
  split at h
  · cases h
  split at h <;> cases h

/-- A frame that is acknowledged without a write was not needed, or is the one message that
is lost. -/
theorem acceptFrame_done {frame : ExecFrame} (h : acceptFrame s source frame reply = .done none) :
    Incorporated s source frame ∨ Unstageable s frame := by
  unfold acceptFrame at h
  split at h
  · cases h
  split at h
  · rename_i hterminal
    exact .inl (.inl hterminal)
  rename_i hrunning
  cases frame with
  | message commitment data => exact acceptMessage_done (by simpa using hrunning) h
  | stepSignature commitment signature => exact .inl (acceptStepSignature_done h)
  | stepCertificate certificate => exact .inl (acceptStepCertificate_done h)
  | direct seq msg attachment => exact .inl (acceptDirect_done h)
  | abort occurrence => exact .inl (acceptAbort_done h)

end Done

/-! ## Acknowledgements after a write -/

theorem lastApplied_recordDirect {s t : ExecutionState κ} {source : PeerId} {seq : UInt64}
    (h : s.recordDirect source seq = .ok t) : (t.lane source).lastApplied = seq := by
  obtain ⟨-, -, -, v, -, rfl⟩ := recordDirect_eq_ok h
  simp [ExecutionState.lane]

private theorem Certifies.step_lt {s t : ExecutionState κ} {proposal : SharedProposal κ}
    {certificate : StepCertificate} (h : Certifies s t proposal certificate) :
    certificate.commitment.step < t.agreedStep := by
  rw [UInt64.lt_iff_toNat_lt, h.step_eq, h.agreedStep.1]
  exact Nat.lt_succ_self _

/-- What a committed frame leaves behind. -/
theorem Committed.incorporated {keys : HostKeys} {db : Db κ} {s t : ExecutionState κ}
    {source : PeerId} {frame : ExecFrame} {reply : GuestReply} {change : Change κ}
    (h : Committed keys db s (.receive source frame reply) t change) :
    Incorporated t source frame := by
  have hdirect : ∀ {u : ExecutionState κ} {seq msg attachment}, u.recordDirect source seq = .ok t →
      Incorporated t source (.direct seq msg attachment) := by
    intro u seq msg attachment hrecord
    refine .inr (.inl ?_)
    rw [lastApplied_recordDirect hrecord]
    exact UInt64.le_refl seq
  cases h with
  | dispatch hinput h => cases hinput
  | message h hstaged => exact .inr (.inl hstaged)
  | direct hopen hlocal h hrecord => exact hdirect hrecord
  | discard hopen hrecord => exact hdirect hrecord
  | @signature _ _ commitment sig _ certified hstaged h =>
    obtain ⟨proposal, signed, hproposal, hadd, ⟨-, -, v, -, rfl⟩ |
      ⟨-, certificate, done, rfl, hcertificate, hcertify⟩⟩ := addStepSignature_eq_ok h
    · have hc : s.commitmentFor proposal = commitment := by
        simpa [proposalCommitment, hproposal] using hstaged
      refine .inr (.inl ⟨signed, rfl, (commitmentFor_addSignature hadd).trans hc, ?_⟩)
      obtain ⟨-, -, rfl⟩ := SharedProposal.addSignature_eq_ok hadd
      simp
    · have hc : certificate.commitment = commitment := by
        rw [(StepCertificate.fromSignatures_eq_ok hcertificate).1]
        simpa [proposalCommitment, hproposal] using hstaged
      have hlt := (Certifies.of_certifyStep hcertify).1.step_lt
      rw [hc] at hlt
      exact .inr (.inr hlt)
  | certificate h =>
    obtain ⟨p, hp, hcertifies, rfl⟩ := Certifies.exists_of_certifyStep h
    exact .inr hcertifies.step_lt
  | abort h =>
    obtain ⟨-, -, -, -, -, -, v, -, rfl⟩ := stop_eq_ok h
    exact .inl rfl
  | evidence hauth hterminal hmatch h =>
    obtain ⟨_, v, phase, -, -, -, rfl, -⟩ := confirmEnd_eq_ok h
    exact .inl hterminal

/-! ## Acknowledgements of a host -/

section Host

variable {keys : HostKeys} {h : Host κ} {nowMs : UInt64} {source : PeerId} {frame : ExecFrame}
  {reply : GuestReply}

theorem Host.handle_receive {s : ExecutionState κ} (hlive : h.live = some s) :
    h.handle keys nowMs (.receive source frame reply) =
      h.perform nowMs (.receive source frame reply) s (acceptFrame s source frame reply) :=
  handle_eq_perform hlive nofun nofun

theorem Host.taken_of_acknowledged
    (hack : (h.handle keys nowMs (.receive source frame reply)).2 = some none) :
    ∃ s, h.live = some s ∧ authenticates s source frame = true := by
  cases hlive : h.live with
  | none => simp [Host.handle, hlive] at hack
  | some s =>
    refine ⟨s, rfl, by_contra fun hauth => ?_⟩
    simp [handle_receive hlive, acceptFrame, hauth, perform] at hack

/-- After an acknowledgement the durable aggregate needs the frame no more, unless the frame is
the one message that is lost. -/
theorem Host.Sound.acknowledged (hs : h.Sound keys)
    (hack : (h.handle keys nowMs (.receive source frame reply)).2 = some none) :
    Incorporated (h.handle keys nowMs (.receive source frame reply)).1.db.state source frame ∨
      Unstageable h.db.state frame := by
  cases hlive : h.live with
  | none => simp [Host.handle, hlive] at hack
  | some s =>
    obtain rfl := hs.live_eq hlive
    rw [handle_receive hlive] at hack ⊢
    cases hdecision : acceptFrame h.db.state source frame reply with
    | done result =>
      rw [hdecision] at hack
      obtain rfl : result = none := Option.some.inj hack
      exact acceptFrame_done hdecision
    | fail error =>
      rw [hdecision] at hack
      cases hack
    | commit next change result =>
      rw [hdecision] at hack
      simp only [perform] at hack ⊢
      split at hack
      · rename_i db hpersist
        dsimp only
        rw [(Db.persistInTransaction_eq_ok hpersist).2.state]
        exact .inl (acceptFrame_commit hdecision : Committed keys h.db _ _ _ _).incorporated
      · cases hack

/-- The lost message is acknowledged and leaves no trace. -/
theorem Unstageable.acknowledged {s : ExecutionState κ} (keys : HostKeys) (nowMs : UInt64)
    (reply : GuestReply) (hlive : h.live = some s)
    (hstate : h.db.state = s) (hauth : authenticates s source frame = true)
    (hlost : Unstageable s frame) :
    (h.handle keys nowMs (.receive source frame reply)).2 = some none ∧
      ¬ Incorporated (h.handle keys nowMs (.receive source frame reply)).1.db.state source frame := by
  obtain ⟨hstatus, hnone, hframe⟩ := hlost
  cases frame with
  | message commitment data =>
    obtain ⟨hstep, hsession, hpre, hlink⟩ := hframe
    have hdecision : acceptFrame s source (.message commitment data) reply = .done none := by
      simp [acceptFrame, hauth, hstatus, ExecutionStatus.isTerminal, acceptMessage, hstep, hsession,
        hpre, hlink, hnone, applyMessage, dispatchEvent, answersOpenCallout, Decision.map]
    rw [Host.handle_receive hlive, hdecision]
    refine ⟨rfl, ?_⟩
    simp [Host.perform, hstate, Incorporated, hstatus, ExecutionStatus.isTerminal,
      proposalCommitment, hnone, hstep]
  | _ => exact hframe.elim

/-- An authenticated frame is acknowledged only once the durable aggregate needs it no more,
exactly unless it is a message for the agreed cursor that reaches an execution which is not
active yet. -/
theorem acknowledged_iff_stageable {s : ExecutionState κ} (hr : h.Reachable keys)
    (hlive : h.live = some s) (hauth : authenticates s source frame = true) :
    ((h.handle keys nowMs (.receive source frame reply)).2 = some none →
      Incorporated (h.handle keys nowMs (.receive source frame reply)).1.db.state source frame) ↔
    ¬ Unstageable s frame := by
  have hs := hr.sound
  obtain rfl := hs.live_eq hlive
  constructor
  · intro h hlost
    obtain ⟨hack, hnot⟩ := hlost.acknowledged keys nowMs reply hlive rfl hauth
    exact hnot (h hack)
  · intro hstageable hack
    exact (hs.acknowledged hack).resolve_right hstageable

/-! ## The order of the actor -/

theorem Progress.activated {me : PeerId} {s t : ExecutionState κ} {input : Input}
    {change : Change κ} (h : Progress me s input t change) (hs : s.status ≠ .activating) :
    t.status ≠ .activating := by
  have hcertified : ∀ {proposal certificate}, Certifies s t proposal certificate →
      t.status ≠ .activating := by
    intro proposal certificate hcertifies
    obtain ⟨_, _, _, -, -, -, rfl⟩ := hcertifies.next
    intro hstatus
    have hvalid := (validateProposal_eq_ok.1 hcertifies.valid).1.status_valid
    rw [show proposal.status = .activating from hstatus] at hvalid
    cases hterminal : proposal.entry.terminal with
    | none => simp [ExecutionStatus.validateProposalStatus, hterminal] at hvalid
    | some terminal =>
      cases terminal <;> simp [ExecutionStatus.validateProposalStatus, hterminal] at hvalid
  cases h with
  | quiet _ _ _ _ _ hstatus _ =>
    rcases hstatus with hsame | ⟨-, hactive⟩
    · intro hstatus
      rw [hstatus] at hsame
      cases hs' : s.status <;> simp_all [ExecutionStatus.unpublished]
    · simp [hactive]
  | staged _ _ hactive _ ht => simp [ht, hactive]
  | signed _ _ _ ht => simpa [ht] using hs
  | completed _ _ _ _ hcertifies => exact hcertified hcertifies
  | certified _ _ hcertifies => exact hcertified hcertifies
  | stopped _ _ hstop | aborted _ hstop =>
    obtain ⟨-, -, -, -, -, -, v, -, rfl⟩ := stop_eq_ok hstop
    intro hstatus
    cases hstatus

namespace Host

/-- Whether the actor is in its command loop: before it, `recover` activates the execution, and
where that fails the loop is entered only with a durable stop. -/
def recovered (keys : HostKeys) (h : Host κ) (before : Bool) (nowMs : UInt64) (input : Input) :
    Bool :=
  match input with
  | .crash => false
  | .activate | .stop .. => before || (h.handle keys nowMs input).2.isSome
  | _ => before

/-- Inputs in the order of the actor, which takes frames in its command loop only. -/
def inOrder (keys : HostKeys) (h : Host κ) (before : Bool) : List (UInt64 × Input) → Bool
  | [] => true
  | (nowMs, .receive source frame reply) :: inputs =>
    before && inOrder keys (h.handle keys nowMs (.receive source frame reply)).1 before inputs
  | (nowMs, input) :: inputs =>
    inOrder keys (h.handle keys nowMs input).1 (h.recovered keys before nowMs input) inputs

/-- What the actor answers to its recovery or to a stop: the execution is past its activation. -/
theorem Sound.activated_of_answered (hs : h.Sound keys) {input : Input}
    (hinput : input = .activate ∨ ∃ kind code reason, input = .stop kind code reason)
    (hanswered : (h.handle keys nowMs input).2.isSome = true) :
    (h.handle keys nowMs input).1.db.state.status ≠ .activating := by
  cases hlive : h.live with
  | none => rcases hinput with rfl | ⟨_, _, _, rfl⟩ <;> simp [Host.handle, hlive] at hanswered
  | some s =>
    obtain rfl := hs.live_eq hlive
    have hhandle : h.handle keys nowMs input =
        h.perform nowMs input h.db.state (Actor.handle keys h.db h.db.state nowMs input) := by
      refine handle_eq_perform hlive ?_ ?_ <;> rcases hinput with rfl | ⟨_, _, _, rfl⟩ <;> simp
    rw [hhandle] at hanswered ⊢
    cases hdecide : Actor.handle keys h.db h.db.state nowMs input with
    | fail error => simp [hdecide, perform] at hanswered
    | done result =>
      intro (hstatus : h.db.state.status = .activating)
      rcases hinput with rfl | ⟨_, _, _, rfl⟩ <;> obtain ⟨_, hdone, -⟩ := map_eq_done hdecide
      · simp only [recover, hstatus] at hdone
        split at hdone
        · contradiction
        · split at hdone <;> cases hdone
      · simp only [persistAbort, hstatus] at hdone
        split at hdone
        · contradiction
        · split at hdone <;> cases hdone
    | commit next change result =>
      rw [hdecide] at hanswered
      simp only [perform] at hanswered ⊢
      split at hanswered
      · rename_i db hpersist
        dsimp only
        rw [(Db.persistInTransaction_eq_ok hpersist).2.state]
        rcases hinput with rfl | ⟨_, _, _, rfl⟩
        · cases handle_commit hdecide with
          | dispatch hinput => cases hinput
          | activate hactivate =>
            obtain ⟨-, -, v, -, rfl⟩ := activate_eq_ok hactivate
            exact nofun
        · cases handle_commit hdecide with
          | dispatch hinput => cases hinput
          | stop _ hstop =>
            obtain ⟨-, -, -, -, -, -, v, -, rfl⟩ := stop_eq_ok hstop
            exact nofun
      · cases hanswered

theorem Sound.activated_of_recovered (hs : h.Sound keys) {before : Bool} {input : Input}
    (hbefore : before = true → h.db.state.status ≠ .activating)
    (hrecovered : h.recovered keys before nowMs input = true) :
    (h.handle keys nowMs input).1.db.state.status ≠ .activating := by
  have hkeep : h.db.state.status ≠ .activating →
      (h.handle keys nowMs input).1.db.state.status ≠ .activating := by
    intro hstatus
    rcases hs.decided nowMs input with ⟨live, heq⟩ | ⟨next, change, answer, db, hdecide, hwritten, heq⟩
    · rw [heq]
      exact hstatus
    · rw [heq]
      show db.state.status ≠ .activating
      rw [hwritten.state]
      exact (handle_commit hdecide).progress.activated hstatus
  cases hbool : before with
  | true => exact hkeep (hbefore hbool)
  | false =>
    subst hbool
    cases input with
    | activate => exact hs.activated_of_answered (.inl rfl) hrecovered
    | stop kind code reason => exact hs.activated_of_answered (.inr ⟨_, _, _, rfl⟩) hrecovered
    | _ => cases hrecovered

/-- A frame that is taken in the order of the actor finds an execution past its activation. -/
theorem Sound.activated_of_inOrder (hs : h.Sound keys) {before : Bool}
    (hbefore : before = true → h.db.state.status ≠ .activating) {inputs : List (UInt64 × Input)}
    (horder : h.inOrder keys before (inputs ++ [(nowMs, .receive source frame reply)]) = true) :
    (h.run keys inputs).db.state.status ≠ .activating := by
  induction inputs generalizing h before with
  | nil =>
    exact hbefore (Bool.and_eq_true_iff.1 horder).1
  | cons input inputs ih =>
    obtain ⟨nowMs, input⟩ := input
    refine ih (hs.handle nowMs input) (fun hnext => hs.activated_of_recovered hbefore hnext) ?_
    cases input with
    | receive source frame reply => exact (Bool.and_eq_true_iff.1 horder).2
    | _ => exact horder

end Host

/-- An acknowledged frame is never lost.  In every run that takes its inputs in the order of the
actor, a frame finds an execution past its activation, and it is acknowledged only once the durable
aggregate has taken it in, holds it already or is past it. -/
theorem acknowledged_frame_kept {db : Db κ} {inputs : List (UInt64 × Input)}
    (hcreated : Host.Created keys db) (hrun : h = (Host.initial db).run keys inputs)
    (horder : (Host.initial db).inOrder keys false
      (inputs ++ [(nowMs, .receive source frame reply)]) = true) :
    h.db.state.status ≠ .activating ∧
      ((h.handle keys nowMs (.receive source frame reply)).2 = some none →
        Incorporated (h.handle keys nowMs (.receive source frame reply)).1.db.state source
          frame) := by
  subst hrun
  have hactivated := hcreated.sound.activated_of_inOrder Bool.false_ne_true.elim horder
  refine ⟨hactivated, fun hack => ?_⟩
  obtain ⟨s, hlive, hauth⟩ := Host.taken_of_acknowledged hack
  obtain rfl := (hcreated.sound.run inputs).live_eq hlive
  exact (acknowledged_iff_stageable ⟨_, _, hcreated, rfl⟩ hlive hauth).2
    (fun hlost => hactivated hlost.1) hack

end Host

namespace Sample

def restarting : List (UInt64 × Input) :=
  [(0, .activate), (0, .crash), (0, .restart), (0, .activate)]

def restarted : Host referencePrimitives := (Host.initial (db 1)).run (keys 1) restarting

end Sample

open Sample in
/-- A restarted execution recovers before it takes the frame. -/
theorem acknowledged_frame_kept_restarted :
    Incorporated (restarted.handle (keys 1) 0
      (.receive (peer 2) (.direct 1 [7] none) (accepted []))).1.db.state (peer 2)
      (.direct 1 [7] none) := by
  have hall : (Host.initial (db 1)).inOrder (keys 1) false
        (restarting ++ [(0, .receive (peer 2) (.direct 1 [7] none) (accepted []))]) = true ∧
      (restarted.handle (keys 1) 0 (.receive (peer 2) (.direct 1 [7] none) (accepted []))).2 =
        some none := by decide +kernel
  obtain ⟨-, hkept⟩ := acknowledged_frame_kept (h := restarted) created_one rfl hall.1
  exact hkept hall.2

end Arena0
