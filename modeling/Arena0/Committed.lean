import Arena0.Host

/-!
# What a committed decision did

Every write of the actor is one transition of the aggregate.  This module inverts
the handlers once: a decision to commit names its input, the protocol transition
behind it and the change that goes to the store.
-/

namespace Arena0

open Borsh Fallible Actor

variable {κ : Primitives} {commitment : StepCommitment} {data : Bytes}

def Input.dispatches : Input → Bool
  | .start _ | .timer .. | .submit .. | .author _ => true
  | _ => false

def DispatchSource.timerId : DispatchSource → Option TimerId
  | .timer timerId => some timerId
  | _ => none

/-- The consumption of a source on top of the aggregate a dispatch computed. -/
def DispatchSource.Consumes (source : DispatchSource) (next t : ExecutionState κ) : Prop :=
  match source with
  | .peerMessage commitment => t = next ∧ next.proposalCommitment = some commitment
  | .direct peer seq => next.recordDirect peer seq = .ok t
  | _ => t = next

/-- The settled answers that drop direct messages from the queue. -/
def SendOutcomeDrops : SendOutcome → Bool
  | .acknowledged | .refused .rejected | .refused .conflict => true
  | .refused .notYet | .failed => false

/-- One committed decision of the actor: its input, its transition and its change. -/
inductive Committed (keys : HostKeys) (db : Db κ) (s : ExecutionState κ) :
    Input → ExecutionState κ → Change κ → Prop
  | activate {t : ExecutionState κ} (h : s.activate = .ok t) :
      Committed keys db s .activate t .state
  | dispatch {t : ExecutionState κ} {input : Input} {event : Event} {result : DispatchResult κ}
      {pendingId : Option UInt64} {timerId : Option TimerId} {frame : Option ExecFrame}
      (hinput : input.dispatches = true)
      (h : s.applyDispatch event result pendingId = .ok (t, frame)) :
      Committed keys db s input t (.dispatch event result.effects timerId)
  | message {t : ExecutionState κ} {source : PeerId} {commitment : StepCommitment} {data : Bytes}
      {reply : GuestReply} {result : DispatchResult κ} {frame : Option ExecFrame}
      (h : s.applyDispatch (.messageReceived source data) result none = .ok (t, frame))
      (hstaged : t.proposalCommitment = some commitment) :
      Committed keys db s (.receive source (.message commitment data) reply) t
        (.dispatch (.messageReceived source data) result.effects none)
  | direct {t next : ExecutionState κ} {source : PeerId} {seq : UInt64} {msg : Bytes}
      {attachment : Option Bytes} {reply : GuestReply} {event : Event} {result : DispatchResult κ}
      {frame : Option ExecFrame} (hopen : s.endPhase = .open)
      (hlocal : event.isAgreed = false)
      (h : s.applyDispatch event result none = .ok (next, frame))
      (hrecord : next.recordDirect source seq = .ok t) :
      Committed keys db s (.receive source (.direct seq msg attachment) reply) t
        (.dispatch event result.effects none)
  | discard {t : ExecutionState κ} {source : PeerId} {seq : UInt64} {msg : Bytes}
      {attachment : Option Bytes} {reply : GuestReply} (hopen : s.endPhase = .open)
      (hrecord : s.recordDirect source seq = .ok t) :
      Committed keys db s (.receive source (.direct seq msg attachment) reply) t .state
  | drop {t : ExecutionState κ} {reply : GuestReply} (h : s.dropOutgoingHead = .ok t) :
      Committed keys db s (.author reply) t .state
  | sign {t : ExecutionState κ} {proposal : SharedProposal κ}
      {certified : Option (SharedProposal κ)} (hproposal : s.proposal = some proposal)
      (h : s.addStepSignature (.new keys.peerId (s.commitmentFor proposal).step
        (keys.sign (s.commitmentFor proposal).signingBytes)) = .ok (t, certified)) :
      Committed keys db s .sign t (.stepSignature certified)
  | signature {t : ExecutionState κ} {source : PeerId} {commitment : StepCommitment}
      {sig : BlsSignature} {reply : GuestReply} {certified : Option (SharedProposal κ)}
      (hproposal : s.proposalCommitment = some commitment)
      (h : s.addStepSignature (.new source commitment.step sig) = .ok (t, certified)) :
      Committed keys db s (.receive source (.stepSignature commitment sig) reply) t
        (.stepSignature certified)
  | certificate {t : ExecutionState κ} {source : PeerId} {certificate : StepCertificate}
      {reply : GuestReply} {certified : SharedProposal κ}
      (h : s.certifyStep certificate = .ok (t, certified)) :
      Committed keys db s (.receive source (.stepCertificate certificate) reply) t
        (.stepSignature (some certified))
  | stop {t : ExecutionState κ} {kind : AbortKind} {code : UInt32} {reason : String}
      {occurrence : AbortOccurrence} (hsender : occurrence.sender = keys.peerId)
      (h : s.stop occurrence = .ok t) :
      Committed keys db s (.stop kind code reason) t .state
  | abort {t : ExecutionState κ} {source : PeerId} {occurrence : AbortOccurrence}
      {reply : GuestReply} (h : s.stop occurrence = .ok t) :
      Committed keys db s (.receive source (.abort occurrence) reply) t .state
  | publish {t : ExecutionState κ} {artifact : ReceiptArtifact κ}
      (hassemble : db.assembleReceipt s = .ok artifact)
      (h : s.publishReceipt artifact = .ok t) :
      Committed keys db s .publish t (.publish artifact)
  | ack {t : ExecutionState κ} {peer : PeerId} {seq : UInt64} {outcome : SendOutcome}
      (houtcome : SendOutcomeDrops outcome = true) (h : s.ackDirect peer seq = .ok (some t)) :
      Committed keys db s (.settle peer (.direct seq) outcome) t .state
  | evidence {t : ExecutionState κ} {source : PeerId} {frame : ExecFrame} {reply : GuestReply}
      (hauth : authenticates s source frame = true) (hterminal : s.status.isTerminal = true)
      (hmatch : s.endConclusionMatches frame = .same)
      (h : s.confirmEnd source = .ok (some t)) :
      Committed keys db s (.receive source frame reply) t .state
  | confirmed {t : ExecutionState κ} {peer : PeerId} {digest : FixedBytes 32}
      (hfinal : isFinalFrame s digest = true) (h : s.confirmEnd peer = .ok (some t)) :
      Committed keys db s (.settle peer (.protocol digest) .acknowledged) t .state
  | expire {t : ExecutionState κ} (h : s.expireEnd = .ok t) : Committed keys db s .expire t .state

namespace Actor

/-! ## Handlers -/

theorem map_eq_commit {α β : Type} {f : α → β} {decision : Decision κ α} {t : ExecutionState κ}
    {change : Change κ} {result : β} (h : decision.map f = .commit t change result) :
    ∃ a, decision = .commit t change a := by
  cases decision with
  | commit next change' a =>
    simp only [Decision.map, Decision.commit.injEq] at h
    obtain ⟨rfl, rfl, -⟩ := h
    exact ⟨a, rfl⟩
  | _ => simp [Decision.map] at h

/-- The guest accepted the dispatch with this result; its outcome matched the session end. -/
def Yields (reply : GuestReply) (result : DispatchResult κ) : Prop :=
  ∃ projection, reply = .accepted (some result.sharedState) (some result.localState)
      result.effects result.callout projection ∧
    terminalOutcome κ result.effects projection = .ok result.terminalOutcome

variable {reply : GuestReply}

theorem dispatchEvent_commit {s t : ExecutionState κ} {event : Event} {source : DispatchSource}
    {change : Change κ} {outcome : DispatchOutcome}
    (h : dispatchEvent s event source reply = .commit t change outcome) :
    ∃ result next frame, s.applyDispatch event result source.pendingId = .ok (next, frame) ∧
      change = .dispatch event result.effects source.timerId ∧ source.Consumes next t ∧
      Yields reply result := by
  unfold dispatchEvent at h
  split at h
  · cases h
  split at h
  · cases h
  unfold dispatchInner at h
  split at h
  · split at h <;> cases h
  · cases h
  · rename_i shared localState effects callout projection
    split at h
    · cases h
    · rename_i outcome houtcome
      split at h
      · unfold refusedDispatch at h
        split at h <;> cases h
      · rename_i next frame happly
        refine ⟨_, next, frame, happly, ?_⟩
        rw [← and_assoc]
        refine ⟨?_, projection, rfl, houtcome⟩
        unfold commitDispatch at h
        split at h
        · split at h
          · rename_i commitment _ own hown
            split at h
            · rename_i heq
              cases h
              exact ⟨rfl, rfl, hown.trans (congrArg some heq)⟩
            · cases h
          · cases h
        · split at h
          · rename_i hrecord
            cases h
            exact ⟨rfl, hrecord⟩
          · cases h
        all_goals
          cases h
          exact ⟨rfl, rfl⟩
  · cases h

theorem confirmPeer_commit {s t : ExecutionState κ} {peer : PeerId} {change : Change κ} {u : Unit}
    (h : confirmPeer s peer = .commit t change u) :
    change = .state ∧ s.confirmEnd peer = .ok (some t) := by
  unfold confirmPeer at h
  split at h
  · rename_i hconfirm
    cases h
    exact ⟨rfl, hconfirm⟩
  all_goals cases h

section

variable {s t : ExecutionState κ} {reply : GuestReply} {change : Change κ}

variable {u : Unit}

theorem ensureSessionStarted_commit (h : ensureSessionStarted s reply = .commit t change u) :
    ∃ ensemble result frame, s.binding.ensemble = .ok ensemble ∧
      s.applyDispatch (.sessionStarted ensemble) result none = .ok (t, frame) ∧
      change = .dispatch (.sessionStarted ensemble) result.effects none ∧ Yields reply result := by
  unfold ensureSessionStarted at h
  split at h
  · cases h
  split at h
  · cases h
  rename_i ensemble hensemble
  split at h
  · cases h
  obtain ⟨_, h⟩ := map_eq_commit h
  obtain ⟨result, next, frame, happly, rfl, rfl, hyields⟩ := dispatchEvent_commit h
  exact ⟨ensemble, result, frame, hensemble, happly, rfl, hyields⟩

theorem authorNextMessage_commit (h : authorNextMessage s reply = .commit t change u) :
    (change = .state ∧ s.status = .active ∧ s.dropOutgoingHead = .ok t ∧
      ∃ reason, dispatchEvent s (.messageReceived s.producer (s.outgoing.headD [])) .ownMessage reply
        = .done (.rejected reason)) ∨
    ∃ result frame,
      s.applyDispatch (.messageReceived s.producer (s.outgoing.headD [])) result none
        = .ok (t, frame) ∧
      change = .dispatch (.messageReceived s.producer (s.outgoing.headD [])) result.effects none ∧
      Yields reply result := by
  unfold authorNextMessage at h
  split at h
  · rename_i hmay
    have hactive : s.status = .active := by
      simp only [mayAuthor, Bool.and_eq_true, decide_eq_true_eq] at hmay
      exact hmay.1.1
    split at h
    · rename_i reason hrejected
      split at h
      · rename_i hdrop
        cases h
        exact .inl ⟨rfl, hactive, hdrop, reason, hrejected⟩
      · cases h
    obtain ⟨_, h⟩ := map_eq_commit h
    obtain ⟨result, next, frame, happly, rfl, rfl, hyields⟩ := dispatchEvent_commit h
    exact .inr ⟨result, frame, happly, rfl, hyields⟩
  · cases h

theorem fireTimer_commit {row : TimerRow} (h : fireTimer s row reply = .commit t change u) :
    ∃ timer result frame, TimerPayload.codec.fromSlice row.payload = some timer ∧
      s.applyDispatch (.timerFired timer) result none = .ok (t, frame) ∧
      change = .dispatch (.timerFired timer) result.effects (some row.timerId) ∧
      Yields reply result := by
  unfold fireTimer at h
  split at h
  · cases h
  rename_i timer htimer
  obtain ⟨_, h⟩ := map_eq_commit h
  obtain ⟨result, next, frame, happly, rfl, rfl, hyields⟩ := dispatchEvent_commit h
  exact ⟨timer, result, frame, htimer, happly, rfl, hyields⟩

theorem submitInput_commit {pendingId : UInt64}
    (h : submitInput s pendingId data reply = .commit t change u) :
    ∃ calloutIndex result frame,
      s.applyDispatch (.inputReceived calloutIndex data) result (some pendingId) = .ok (t, frame) ∧
      change = .dispatch (.inputReceived calloutIndex data) result.effects none ∧
      Yields reply result := by
  unfold submitInput at h
  split at h
  · cases h
  split at h
  · cases h
  · cases h
  obtain ⟨_, h⟩ := map_eq_commit h
  obtain ⟨result, next, frame, happly, rfl, rfl, hyields⟩ := dispatchEvent_commit h
  exact ⟨_, result, frame, happly, rfl, hyields⟩

end

/-! ## Delivered frames -/

variable {keys : HostKeys} {db : Db κ} {s t : ExecutionState κ} {change : Change κ}

variable {source : PeerId}

theorem acceptMessage_dispatches {answer : Option ExecDeliveryRejection}
    (h : acceptMessage s source commitment data reply = .commit t change answer) :
    ∃ result frame, s.applyDispatch (.messageReceived source data) result none = .ok (t, frame) ∧
      change = .dispatch (.messageReceived source data) result.effects none ∧
      t.proposalCommitment = some commitment ∧ Yields reply result := by
  unfold acceptMessage at h
  split at h
  · cases h
  split at h
  · cases h
  split at h
  · cases h
  split at h
  · split at h <;> cases h
  obtain ⟨_, h⟩ := map_eq_commit h
  unfold applyMessage at h
  split at h
  · cases h
  obtain ⟨_, h⟩ := map_eq_commit h
  obtain ⟨result, next, frame, happly, rfl, ⟨rfl, hstaged⟩, hyields⟩ := dispatchEvent_commit h
  exact ⟨result, frame, happly, rfl, hstaged, hyields⟩

variable {result : Option ExecDeliveryRejection}

theorem acceptMessage_commit
    (h : acceptMessage s source commitment data reply = .commit t change result) :
    Committed keys db s (.receive source (.message commitment data) reply) t change := by
  obtain ⟨result, frame, happly, rfl, hstaged, -⟩ := acceptMessage_dispatches h
  exact .message happly hstaged

theorem acceptStepSignature_commit {sig : BlsSignature}
    (h : acceptStepSignature s source commitment sig = .commit t change result) :
    Committed keys db s (.receive source (.stepSignature commitment sig) reply) t change := by
  unfold acceptStepSignature at h
  split at h
  · cases h
  split at h
  · cases h
  split at h
  · cases h
  split at h
  · cases h
  rename_i hstaged
  simp only [ne_eq, not_not] at hstaged
  dsimp only at h
  split at h
  · cases h
  split at h
  · rename_i hadd
    cases h
    exact .signature hstaged hadd
  · cases h

theorem acceptStepCertificate_commit {certificate : StepCertificate}
    (h : acceptStepCertificate s certificate = .commit t change result) :
    Committed keys db s (.receive source (.stepCertificate certificate) reply) t change := by
  unfold acceptStepCertificate at h
  split at h
  · cases h
  split at h
  · cases h
  split at h
  · cases h
  split at h
  · rename_i hcertify
    cases h
    exact .certificate hcertify
  · cases h

theorem acceptDirect_dispatches {seq : UInt64} {msg : Bytes} {attachment : Option Bytes}
    {answer : Option ExecDeliveryRejection}
    (h : acceptDirect s source seq msg attachment reply = .commit t change answer) :
    s.endPhase = .open ∧ (change = .state ∧ s.recordDirect source seq = .ok t ∨
      ∃ result next frame,
        s.applyDispatch (.directReceived source msg (attachment.map fun _ => 0)) result none
          = .ok (next, frame) ∧
        change = .dispatch (.directReceived source msg (attachment.map fun _ => 0))
          result.effects none ∧
        next.recordDirect source seq = .ok t ∧ Yields reply result) := by
  unfold acceptDirect at h
  split at h
  · cases h
  rename_i hopen
  simp only [ne_eq, not_not] at hopen
  split at h
  · cases h
  · cases h
  split at h
  · cases h
  obtain ⟨_, h⟩ := map_eq_commit h
  unfold dispatchDirect at h
  split at h
  · split at h
    · rename_i hrecord
      cases h
      exact ⟨hopen, .inl ⟨rfl, hrecord⟩⟩
    · cases h
  · obtain ⟨result, next, frame, happly, rfl, hrecord, hyields⟩ := dispatchEvent_commit h
    exact ⟨hopen, .inr ⟨result, next, frame, happly, rfl, hrecord, hyields⟩⟩

theorem acceptDirect_commit {seq : UInt64} {msg : Bytes} {attachment : Option Bytes}
    (h : acceptDirect s source seq msg attachment reply = .commit t change result) :
    Committed keys db s (.receive source (.direct seq msg attachment) reply) t change := by
  obtain ⟨hopen, ⟨rfl, hrecord⟩ | ⟨result, next, frame, happly, rfl, hrecord, -⟩⟩ :=
    acceptDirect_dispatches h
  · exact .discard hopen hrecord
  · exact .direct hopen rfl happly hrecord

theorem acceptAbort_commit {occurrence : AbortOccurrence}
    (h : acceptAbort s occurrence = .commit t change result) :
    Committed keys db s (.receive source (.abort occurrence) reply) t change := by
  unfold acceptAbort at h
  split at h
  · cases h
  split at h
  · cases h
  split at h
  · rename_i hstop
    cases h
    exact .abort hstop
  all_goals cases h

theorem acceptFrame_commit {frame : ExecFrame}
    (h : acceptFrame s source frame reply = .commit t change result) :
    Committed keys db s (.receive source frame reply) t change := by
  unfold acceptFrame at h
  split at h
  · cases h
  rename_i hauth
  split at h
  · rename_i hterminal
    unfold acceptTerminal at h
    split at h
    · rename_i hmatch
      obtain ⟨_, h⟩ := map_eq_commit h
      obtain ⟨rfl, hconfirm⟩ := confirmPeer_commit h
      exact .evidence (by simpa using hauth) hterminal hmatch hconfirm
    all_goals cases h
  · cases frame with
    | message commitment data => exact acceptMessage_commit h
    | stepSignature commitment sig => exact acceptStepSignature_commit h
    | stepCertificate certificate => exact acceptStepCertificate_commit h
    | direct seq msg attachment => exact acceptDirect_commit h
    | abort occurrence => exact acceptAbort_commit h

/-! ## Local inputs -/

theorem stoppedState_eq_ok {kind : AbortKind} {code : UInt32} {reason : String}
    {occurrence : AbortOccurrence}
    (h : stoppedState keys s kind code reason = .ok (t, occurrence)) :
    s.producer = keys.peerId ∧ occurrence.sender = keys.peerId ∧ s.stop occurrence = .ok t := by
  simp only [stoppedState, AbortOccurrence.unsigned, AbortOccurrence.new,
    AbortOccurrence.withSignature, bind_eq_ok, ensure_eq_ok, mapError_eq_ok, pure_eq_ok,
    Prod.mk.injEq] at h
  obtain ⟨_, hproducer, _, ⟨_, _, rfl⟩, bytes, _, _, ⟨_, _, rfl⟩, next, hstop, rfl, rfl⟩ := h
  exact ⟨hproducer, rfl, hstop⟩

theorem settleSend_commit {peer : PeerId} {sent : Sent} {outcome : SendOutcome} {u : Unit}
    (h : settleSend s peer sent outcome = .commit t change u) :
    Committed keys db s (.settle peer sent outcome) t change := by
  have hack : ∀ {seq : UInt64} {outcome : SendOutcome} {next : ExecutionState κ},
      SendOutcomeDrops outcome = true → s.ackDirect peer seq = .ok (some next) →
      Decision.commit next .state () = .commit t change u →
      Committed keys db s (.settle peer (.direct seq) outcome) t change := by
    intro seq outcome next hdrops hdirect h
    cases h
    exact .ack hdrops hdirect
  unfold settleSend at h
  split at h
  iterate 3
    · split at h
      · rename_i hdirect
        exact hack rfl hdirect h
      all_goals cases h
  · split at h
    · rename_i hfinal
      obtain ⟨rfl, hconfirm⟩ := confirmPeer_commit h
      exact .confirmed hfinal hconfirm
    · cases h
  · cases h

/-- Every commit of the actor is one of the listed transitions. -/
theorem handle_commit {nowMs : UInt64} {input : Input}
    (h : handle keys db s nowMs input = .commit t change result) :
    Committed keys db s input t change := by
  cases input with
  | crash => cases h
  | restart => cases h
  | activate =>
    obtain ⟨_, h⟩ := map_eq_commit h
    unfold recover at h
    split at h
    · cases h
    split at h
    · rename_i hactivate
      cases h
      exact .activate hactivate
    · cases h
  | start reply =>
    obtain ⟨_, h⟩ := map_eq_commit h
    obtain ⟨ensemble, result, frame, -, happly, rfl, -⟩ := ensureSessionStarted_commit h
    exact .dispatch rfl happly
  | timer timerId reply =>
    simp only [handle] at h
    split at h
    · obtain ⟨_, h⟩ := map_eq_commit h
      obtain ⟨timer, result, frame, -, happly, rfl, -⟩ := fireTimer_commit h
      exact .dispatch rfl happly
    · cases h
  | submit pendingId data reply =>
    obtain ⟨_, h⟩ := map_eq_commit h
    obtain ⟨calloutIndex, result, frame, happly, rfl, -⟩ := submitInput_commit h
    exact .dispatch rfl happly
  | author reply =>
    obtain ⟨_, h⟩ := map_eq_commit h
    rcases authorNextMessage_commit h with
      ⟨rfl, -, hdrop, -⟩ | ⟨result, frame, happly, rfl, -⟩
    · exact .drop hdrop
    · exact .dispatch rfl happly
  | sign =>
    obtain ⟨_, h⟩ := map_eq_commit h
    unfold ensureStepSignature at h
    split at h
    · cases h
    · rename_i proposal hproposal
      split at h
      · cases h
      dsimp only at h
      split at h
      · rename_i hadd
        cases h
        exact .sign hproposal hadd
      · cases h
  | stop kind code reason =>
    obtain ⟨_, h⟩ := map_eq_commit h
    unfold persistAbort at h
    split at h
    · cases h
    split at h
    · rename_i hstopped
      cases h
      obtain ⟨-, hsender, hstop⟩ := stoppedState_eq_ok hstopped
      exact .stop hsender hstop
    · cases h
  | publish =>
    obtain ⟨_, h⟩ := map_eq_commit h
    unfold Actor.publishReceipt at h
    split at h
    · cases h
    split at h
    · cases h
    · rename_i hassemble
      split at h
      · rename_i hpublish
        cases h
        exact .publish hassemble hpublish
      · cases h
  | receive source frame reply => exact acceptFrame_commit h
  | settle peer sent outcome =>
    obtain ⟨_, h⟩ := map_eq_commit h
    exact settleSend_commit h
  | expire =>
    obtain ⟨_, h⟩ := map_eq_commit h
    unfold expireConfirmation at h
    split at h
    · split at h
      · rename_i hexpire
        cases h
        exact .expire hexpire
      · cases h
    · cases h

end Actor

end Arena0
