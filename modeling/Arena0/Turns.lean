import Arena0.HostInvariant

/-!
# The turns of a run

A turn is one committed transaction of a host: the transition of the aggregate,
the input and the clock it was taken at, and the change that went to the store.
This module inverts a turn once, seen from the guest: where a dispatched event
came from, and what becomes of the outgoing queue, the open callout, the event
position and the staged proposal.  Facts about whole runs then follow by
induction over the turns.
-/

namespace Arena0

open Borsh Fallible Actor ExecutionState

variable {κ : Primitives} {result : DispatchResult κ} {db' : Db κ}

/-! ## Committed dispatches -/

def GuestReply.callout : GuestReply → Option CalloutRequest
  | .accepted _ _ _ callout _ => callout
  | .trapped _ | .rejected _ => none

def Input.requested : Input → Option CalloutRequest
  | .start reply | .timer _ reply | .submit _ _ reply | .author reply | .receive _ _ reply =>
    reply.callout
  | _ => none

def broadcasts (effects : List Effect) : List Bytes :=
  effects.filterMap fun
    | .broadcast data => some data
    | _ => none

/-- Where the event of a dispatch comes from, the callout it answers and the timer it consumes. -/
inductive EventSource (db : Db κ) (nowMs : UInt64) (s : ExecutionState κ) :
    Input → Event → Option UInt64 → Option TimerId → Prop
  | start {ensemble : Ensemble} {reply : GuestReply} :
      EventSource db nowMs s (.start reply) (.sessionStarted ensemble) none none
  | timer {row : TimerRow} {timer : TimerPayload} {reply : GuestReply}
      (hdue : row ∈ db.dueTimers nowMs)
      (hpayload : TimerPayload.codec.fromSlice row.payload = some timer) :
      EventSource db nowMs s (.timer row.timerId reply) (.timerFired timer) none (some row.timerId)
  | submit {pendingId : UInt64} {calloutIndex : UInt32} {data : Bytes} {reply : GuestReply} :
      EventSource db nowMs s (.submit pendingId data reply) (.inputReceived calloutIndex data)
        (some pendingId) none
  | author {reply : GuestReply} :
      EventSource db nowMs s (.author reply)
        (.messageReceived s.producer (s.outgoing.headD [])) none none
  | message {source : PeerId} {commitment : StepCommitment} {data : Bytes} {reply : GuestReply} :
      EventSource db nowMs s (.receive source (.message commitment data) reply)
        (.messageReceived source data) none none
  | direct {source : PeerId} {seq : UInt64} {msg : Bytes} {attachment : Option Bytes}
      {reply : GuestReply} :
      EventSource db nowMs s (.receive source (.direct seq msg attachment) reply)
        (.directReceived source msg (attachment.map fun _ => 0)) none none

/-- A committed dispatch: its source, and what the protocol accepted. -/
structure CommittedDispatch (db : Db κ) (nowMs : UInt64) (s : ExecutionState κ) (input : Input)
    (event : Event) (result : DispatchResult κ) (pendingId : Option UInt64)
    (timerId : Option TimerId) (t : ExecutionState κ) : Prop where
  source : EventSource db nowMs s input event pendingId timerId
  requested : input.requested = result.callout
  applied : ∃ next frame, s.applyDispatch event result pendingId = .ok (next, frame) ∧
    (t = next ∨ event.isAgreed = false ∧ ∃ peer seq, next.recordDirect peer seq = .ok t)

theorem Actor.Yields.callout {reply : GuestReply}
    (h : Yields reply result) : reply.callout = result.callout := by
  obtain ⟨projection, rfl, -⟩ := h
  rfl

section

variable {keys : HostKeys} {db : Db κ} {s t : ExecutionState κ} {nowMs : UInt64} {event : Event}
  {effects : List Effect} {timerId : Option TimerId} {answer : Option ExecDeliveryRejection}

def Input.RunsGuest (input : Input) : Prop :=
  input.dispatches = true ∨
    (∃ source commitment data reply, input = .receive source (.message commitment data) reply) ∨
    ∃ source seq msg attachment reply, input = .receive source (.direct seq msg attachment) reply

theorem Committed.runsGuest {input : Input} {change : Change κ}
    (h : Committed keys db s input t change) (hchange : change = .dispatch event effects timerId) :
    input.RunsGuest := by
  cases h with
  | dispatch hinput _ => exact .inl hinput
  | message _ _ => exact .inr (.inl ⟨_, _, _, _, rfl⟩)
  | direct _ _ _ _ => exact .inr (.inr ⟨_, _, _, _, _, rfl⟩)
  | _ => cases hchange

theorem Actor.acceptFrame_dispatches (keys : HostKeys) {source : PeerId} {frame : ExecFrame}
    {reply : GuestReply}
    (h : acceptFrame s source frame reply = .commit t (.dispatch event effects timerId) answer) :
    ∃ result pendingId, effects = result.effects ∧
      CommittedDispatch db nowMs s (.receive source frame reply) event result pendingId timerId t := by
  unfold acceptFrame at h
  split at h
  · cases h
  split at h
  · unfold acceptTerminal at h
    split at h
    · obtain ⟨_, h⟩ := map_eq_commit h
      cases (confirmPeer_commit h).1
    all_goals cases h
  · cases frame with
    | message commitment data =>
      obtain ⟨result, frame, happly, hchange, -, hyields⟩ := acceptMessage_dispatches h
      cases hchange
      exact ⟨result, none, rfl, .message, hyields.callout, _, frame, happly, .inl rfl⟩
    | direct seq msg attachment =>
      obtain ⟨-, ⟨hchange, -⟩ | ⟨result, next, frame, happly, hchange, hrecord, hyields⟩⟩ :=
        acceptDirect_dispatches h
      · cases hchange
      · cases hchange
        exact ⟨result, none, rfl, .direct, hyields.callout, next, frame, happly,
          .inr ⟨rfl, source, seq, hrecord⟩⟩
    | stepSignature commitment sig =>
      have hc : Committed keys db s (.receive source (.stepSignature commitment sig) reply) t _ :=
        acceptStepSignature_commit h
      obtain hi | ⟨_, _, _, _, hi⟩ | ⟨_, _, _, _, _, hi⟩ := hc.runsGuest rfl <;> cases hi
    | stepCertificate certificate =>
      have hc : Committed keys db s (.receive source (.stepCertificate certificate) reply) t _ :=
        acceptStepCertificate_commit h
      obtain hi | ⟨_, _, _, _, hi⟩ | ⟨_, _, _, _, _, hi⟩ := hc.runsGuest rfl <;> cases hi
    | abort occurrence =>
      have hc : Committed keys db s (.receive source (.abort occurrence) reply) t _ :=
        acceptAbort_commit h
      obtain hi | ⟨_, _, _, _, hi⟩ | ⟨_, _, _, _, _, hi⟩ := hc.runsGuest rfl <;> cases hi

/-- Every committed dispatch names its source. -/
private theorem Actor.handle_dispatches {input : Input}
    (h : Actor.handle keys db s nowMs input = .commit t (.dispatch event effects timerId) answer) :
    ∃ result pendingId, effects = result.effects ∧
      CommittedDispatch db nowMs s input event result pendingId timerId t := by
  cases input with
  | start reply =>
    obtain ⟨_, h⟩ := map_eq_commit h
    obtain ⟨ensemble, result, frame, -, happly, hchange, hyields⟩ := ensureSessionStarted_commit h
    cases hchange
    exact ⟨result, none, rfl, .start, hyields.callout, t, frame, happly, .inl rfl⟩
  | timer id reply =>
    simp only [Actor.handle] at h
    split at h
    · rename_i row hrow
      obtain ⟨_, h⟩ := map_eq_commit h
      obtain ⟨timer, result, frame, hpayload, happly, hchange, hyields⟩ := fireTimer_commit h
      cases hchange
      have hid : row.timerId = id := by simpa using List.find?_some hrow
      subst hid
      exact ⟨result, none, rfl, .timer (List.mem_of_find?_eq_some hrow) hpayload, hyields.callout,
        t, frame, happly, .inl rfl⟩
    · cases h
  | submit pendingId data reply =>
    obtain ⟨_, h⟩ := map_eq_commit h
    obtain ⟨calloutIndex, result, frame, happly, hchange, hyields⟩ := submitInput_commit h
    cases hchange
    exact ⟨result, some pendingId, rfl, .submit, hyields.callout, t, frame, happly, .inl rfl⟩
  | author reply =>
    obtain ⟨_, h⟩ := map_eq_commit h
    rcases authorNextMessage_commit h with ⟨hchange, -⟩ | ⟨result, frame, happly, hchange, hyields⟩
    · cases hchange
    · cases hchange
      exact ⟨result, none, rfl, .author, hyields.callout, t, frame, happly, .inl rfl⟩
  | receive source frame reply => exact acceptFrame_dispatches keys h
  | _ =>
    -- the other inputs run no guest dispatch
    obtain hi | ⟨_, _, _, _, hi⟩ | ⟨_, _, _, _, _, hi⟩ := (handle_commit h).runsGuest rfl <;> cases hi

end

/-! ## What a committed transition does -/

/-- The queue, the callout, the proposal and the event position stay. -/
structure SameGuestView (s t : ExecutionState κ) : Prop where
  outgoing : t.outgoing = s.outgoing
  callout : t.callout = s.callout
  proposal : t.proposal = s.proposal
  eventPosition : t.eventPosition = s.eventPosition

/-- What a committed transition does to the queue, the callout, the proposal and the event
position. -/
inductive Move (db : Db κ) (nowMs : UInt64) (s : ExecutionState κ) (input : Input)
    (t : ExecutionState κ) : Change κ → Prop
  | installed {event : Event} {result : DispatchResult κ} {pendingId : Option UInt64}
      {timerId : Option TimerId}
      (hdispatched : CommittedDispatch db nowMs s input event result pendingId timerId t)
      (hlocal : event.isAgreed = false) (hactive : s.status = .active) (hfree : s.proposal = none)
      (hcallout : s.validateCalloutDispatch event pendingId = .ok ())
      (houtgoing : t.outgoing = s.outgoing ++ broadcasts result.effects)
      (hopen : t.callout = s.nextOpenCallout event s.eventPosition .active result.callout)
      (hproposal : t.proposal = none) (hstatus : t.status = .active)
      (hposition : checkedAdd s.eventPosition 1 = some t.eventPosition) :
      Move db nowMs s input t (.dispatch event result.effects timerId)
  | staged {event : Event} {result : DispatchResult κ} {pendingId : Option UInt64}
      {timerId : Option TimerId} {proposal : SharedProposal κ} {position version : UInt64}
      (hdispatched : CommittedDispatch db nowMs s input event result pendingId timerId t)
      (hagreed : event.isAgreed = true) (hactive : s.status = .active) (hfree : s.proposal = none)
      (hcallout : s.validateCalloutDispatch event pendingId = .ok ())
      (hstaged : StagedBy s event result proposal)
      (hposition : checkedAdd s.eventPosition 1 = some position)
      (ht : t = { s with
        eventPosition := position, proposal := some proposal, version := version }) :
      Move db nowMs s input t (.dispatch event result.effects timerId)
  | signed {proposal signed : SharedProposal κ} {version : UInt64}
      (hproposal : s.proposal = some proposal)
      (hsigned : signed = { proposal with signatures := signed.signatures })
      (ht : t = { s with proposal := some signed, version := version }) :
      Move db nowMs s input t (.stepSignature none)
  | certified {proposal signed : SharedProposal κ} {certificate : StepCertificate}
      (hproposal : s.proposal = some proposal)
      (hsigned : signed = { proposal with signatures := signed.signatures })
      (hcertifies : Certifies s t signed certificate) :
      Move db nowMs s input t (.stepSignature (some (signed.under certificate)))
  | dropped {reply : GuestReply} {head : Bytes} {rest : List Bytes} {version : UInt64}
      (hinput : input = .author reply) (hactive : s.status = .active) (hfree : s.proposal = none)
      (houtgoing : s.outgoing = head :: rest)
      (ht : t = { s with outgoing := rest, version := version }) : Move db nowMs s input t .state
  | stopped {occurrence : AbortOccurrence} {version : UInt64}
      (hrunning : s.status.isTerminal = false)
      (ht : t = { s.stoppedBy occurrence with version := version }) : Move db nowMs s input t .state
  | kept {change : Change κ} (hchange : change = .state ∨ ∃ artifact, change = .publish artifact)
      (hsame : SameGuestView s { t with callout := s.callout })
      (hcallout : t.callout = s.callout ∨ t.callout = none ∧ s.status.isTerminal = true)
      (hterminal : t.status.isTerminal = s.status.isTerminal)
      (hactive : s.status = .active → t.status = .active) : Move db nowMs s input t change

theorem Certifies.installs {s t : ExecutionState κ} {proposal : SharedProposal κ}
    {certificate : StepCertificate} (h : Certifies s t proposal certificate) :
    t.callout = proposal.callout ∧ t.outgoing = proposal.outgoing ∧ t.status = proposal.status ∧
      t.proposal = none ∧ t.eventPosition = s.eventPosition := by
  obtain ⟨-, -, -, _, _, _, -, -, -, rfl⟩ := h
  exact ⟨rfl, rfl, rfl, rfl, rfl⟩

theorem appendBroadcasts_eq_append {outgoing queue : List Bytes} {effects : List Effect}
    (h : appendBroadcasts outgoing effects = .ok queue) :
    queue = outgoing ++ broadcasts effects := by
  induction effects generalizing outgoing with
  | nil =>
    cases h
    exact (List.append_nil _).symm
  | cons effect effects ih =>
    cases effect with
    | broadcast data =>
      simp only [appendBroadcasts, bind_eq_ok] at h
      obtain ⟨_, -, h⟩ := h
      rw [ih h, List.append_assoc]
      rfl
    | _ => exact ih h

theorem ExecutionState.applyDispatch_callout {s t : ExecutionState κ} {event : Event}
    {pendingId : Option UInt64} {frame : Option ExecFrame}
    (h : s.applyDispatch event result pendingId = .ok (t, frame)) :
    s.validateCalloutDispatch event pendingId = .ok () := by
  simp only [applyDispatch, bind_eq_ok] at h
  obtain ⟨_, -, _, -, _, -, _, -, _, hcallout, -⟩ := h
  exact hcallout

section

variable {keys : HostKeys} {db : Db κ} {s t : ExecutionState κ} {nowMs : UInt64} {input : Input}
  {change : Change κ}

theorem CommittedDispatch.move {event : Event} {pendingId : Option UInt64}
    {timerId : Option TimerId}
    (h : CommittedDispatch db nowMs s input event result pendingId timerId t) :
    Move db nowMs s input t (.dispatch event result.effects timerId) := by
  obtain ⟨next, frame, happly, ht⟩ := h.applied
  have hcallout := applyDispatch_callout happly
  obtain ⟨-, ⟨hlocal, -, lifecycle, hinstall⟩ | ⟨hagreed, -, indexed, lifecycle, hindexed, hstage⟩⟩ :=
    applyDispatch_eq_ok happly
  · obtain ⟨hfree, hactive, -, outgoing, direct, position, version, hout, -, -, hposition, -, rfl⟩ :=
      applyLocal_eq_ok hinstall
    have hqueue := appendBroadcasts_eq_append hout
    rcases ht with rfl | ⟨-, peer, seq, hrecord⟩
    · exact .installed h hlocal hactive hfree hcallout hqueue rfl hfree rfl hposition
    · obtain ⟨-, -, -, v, -, rfl⟩ := recordDirect_eq_ok hrecord
      exact .installed h hlocal hactive hfree hcallout hqueue rfl hfree rfl hposition
  · obtain ⟨hfree, hactive, proposal, position, version, hstaged, -, hposition, -, hnext⟩ :=
      applyAgreed_eq_ok hindexed hstage
    rcases ht with rfl | ⟨hlocal, -⟩
    · exact .staged h hagreed hactive hfree hcallout hstaged hposition hnext
    · rw [hlocal] at hagreed
      cases hagreed

private theorem Move.of_addStepSignature {x : ParticipantStepSignature}
    {certified : Option (SharedProposal κ)} (h : s.addStepSignature x = .ok (t, certified)) :
    Move db nowMs s input t (.stepSignature certified) := by
  obtain ⟨proposal, signed, hproposal, hadd, ⟨-, rfl, version, -, ht⟩ |
    ⟨-, certificate, done, rfl, -, hcertify⟩⟩ := addStepSignature_eq_ok h
  · obtain ⟨-, -, rfl⟩ := SharedProposal.addSignature_eq_ok hadd
    exact .signed hproposal rfl ht
  · obtain ⟨hcertifies, rfl⟩ := Certifies.of_certifyStep hcertify
    obtain ⟨-, -, rfl⟩ := SharedProposal.addSignature_eq_ok hadd
    exact .certified hproposal rfl hcertifies

private theorem Move.of_same (hsame : SameGuestView s t) (hstatus : t.status = s.status) :
    Move db nowMs s input t .state := by
  refine .kept (.inl rfl) ⟨hsame.outgoing, rfl, hsame.proposal, hsame.eventPosition⟩
    (.inl hsame.callout) ?_ ?_
  · rw [hstatus]
  · exact fun hactive => hstatus.trans hactive

private theorem Move.of_confirmEnd {peer : PeerId} (h : s.confirmEnd peer = .ok (some t)) :
    Move db nowMs s input t .state := by
  obtain ⟨_, v, phase, -, -, -, rfl, -⟩ := confirmEnd_eq_ok h
  exact .of_same ⟨rfl, rfl, rfl, rfl⟩ rfl

private theorem Move.of_stop {occurrence : AbortOccurrence} (h : s.stop occurrence = .ok t) :
    Move db nowMs s input t .state := by
  obtain ⟨-, -, -, -, hrunning, -, v, -, ht⟩ := stop_eq_ok h
  exact .stopped hrunning ht

/-- Every committed decision is one of these moves. -/
theorem Actor.handle_move {answer : Option ExecDeliveryRejection}
    (hdecide : Actor.handle keys db s nowMs input = .commit t change answer) :
    Move db nowMs s input t change := by
  have hdispatch : ∀ {event effects timerId},
      Actor.handle keys db s nowMs input = .commit t (.dispatch event effects timerId) answer →
      Move db nowMs s input t (.dispatch event effects timerId) := by
    intro event effects timerId h
    obtain ⟨result, pendingId, rfl, hdispatched⟩ := handle_dispatches h
    exact hdispatched.move
  cases handle_commit hdecide with
  | dispatch _ _ => exact hdispatch hdecide
  | message _ _ => exact hdispatch hdecide
  | direct _ _ _ _ => exact hdispatch hdecide
  | activate h =>
    obtain ⟨hstatus, -, v, -, rfl⟩ := activate_eq_ok h
    refine .kept (.inl rfl) ⟨rfl, rfl, rfl, rfl⟩ (.inl rfl) ?_ (fun _ => rfl)
    rw [hstatus]
    rfl
  | discard _ h =>
    obtain ⟨-, -, -, v, -, rfl⟩ := recordDirect_eq_ok h
    exact .of_same ⟨rfl, rfl, rfl, rfl⟩ rfl
  | drop h =>
    obtain ⟨_, hauthor⟩ := map_eq_commit hdecide
    obtain ⟨-, hactive, -⟩ | ⟨_, _, -, hchange, -⟩ := authorNextMessage_commit hauthor
    · simp only [dropOutgoingHead, bind_eq_ok, ensure_eq_ok, bumpVersion_eq_ok] at h
      obtain ⟨_, hfree, _, hne, v, -, ht⟩ := h
      obtain ⟨head, rest, houtgoing⟩ := List.exists_cons_of_ne_nil hne
      rw [houtgoing, List.tail_cons] at ht
      exact .dropped rfl hactive hfree houtgoing ht
    · cases hchange
  | sign _ h => exact .of_addStepSignature h
  | signature _ h => exact .of_addStepSignature h
  | certificate h =>
    obtain ⟨proposal, hproposal, hcertifies, rfl⟩ := Certifies.exists_of_certifyStep h
    exact .certified hproposal rfl hcertifies
  | stop _ h => exact .of_stop h
  | abort h => exact .of_stop h
  | publish _ h =>
    obtain ⟨-, status, v, hstatus, -, rfl⟩ := publishReceipt_eq_ok h
    have hterminal : s.status.isTerminal = true ∧ status.isTerminal = true := by
      rcases publishedStatus_eq_ok hstatus with ⟨outcome, hs, rfl⟩ | ⟨cause, hs, rfl⟩ <;>
        exact ⟨by rw [hs]; rfl, rfl⟩
    refine .kept (.inr ⟨_, rfl⟩) ⟨rfl, rfl, rfl, rfl⟩ (.inr ⟨rfl, hterminal.1⟩) ?_ ?_
    · exact hterminal.2.trans hterminal.1.symm
    · intro hactive
      rw [hactive] at hterminal
      cases hterminal.1
  | ack _ h =>
    obtain ⟨-, -, v, -, rfl⟩ := ackDirect_eq_ok h
    exact .of_same ⟨rfl, rfl, rfl, rfl⟩ rfl
  | evidence _ _ _ h => exact .of_confirmEnd h
  | confirmed _ h => exact .of_confirmEnd h
  | expire h =>
    obtain ⟨_, v, -, -, rfl⟩ := expireEnd_eq_ok h
    exact .of_same ⟨rfl, rfl, rfl, rfl⟩ rfl

end

/-! ## Turns -/

variable (κ) in
/-- One committed transaction. -/
structure Turn extends Record κ where
  nowMs : UInt64
  change : Change κ

def Turn.event (turn : Turn κ) : Option Event :=
  match turn.change with
  | .dispatch event _ _ => some event
  | _ => none

namespace Host

def turn (keys : HostKeys) (h : Host κ) (nowMs : UInt64) (input : Input) : Option (Turn κ) :=
  match h.live with
  | none => none
  | some s =>
    match Actor.handle keys h.db s nowMs input with
    | .commit next change _ =>
      match h.db.persistInTransaction s.version next change nowMs with
      | .ok _ => some ⟨⟨s, input, next⟩, nowMs, change⟩
      | .error _ => none
    | .done _ | .fail _ => none

def turns (keys : HostKeys) (h : Host κ) : List (UInt64 × Input) → List (Turn κ)
  | [] => []
  | input :: inputs =>
    (h.turn keys input.1 input.2).toList ++
      turns keys (h.handle keys input.1 input.2).1 inputs

variable {keys : HostKeys} {h : Host κ}

private theorem handle_db_of_idle {nowMs : UInt64} {input : Input}
    (hidle : ∀ s next change answer, h.live = some s →
      Actor.handle keys h.db s nowMs input ≠ .commit next change answer) :
    (h.handle keys nowMs input).1.db = h.db := by
  unfold Host.handle
  split
  · rfl
  · split <;> rfl
  · split
    · rfl
    · rename_i s hlive
      unfold perform
      split
      · rfl
      · rfl
      · rename_i hdecide
        exact absurd hdecide (hidle s _ _ _ hlive)

theorem turns_append (keys : HostKeys) (h : Host κ) (first second : List (UInt64 × Input)) :
    h.turns keys (first ++ second) =
      h.turns keys first ++ (h.run keys first).turns keys second := by
  induction first generalizing h with
  | nil => rfl
  | cons input first ih =>
    simp only [List.cons_append, turns, ih, List.append_assoc]
    rfl

/-- An input commits one transaction, or it leaves the rows as they are. -/
theorem Sound.turn_cases (hs : h.Sound keys) (nowMs : UInt64) (input : Input) :
    h.turn keys nowMs input = none ∧ (h.handle keys nowMs input).1.db = h.db ∨
      ∃ next change answer db,
        Actor.handle keys h.db h.db.state nowMs input = .commit next change answer ∧
        h.db.persistInTransaction h.db.state.version next change nowMs = .ok db ∧
        h.turn keys nowMs input = some ⟨⟨h.db.state, input, next⟩, nowMs, change⟩ ∧
        (h.handle keys nowMs input).1.db = db := by
  unfold turn
  split
  · rename_i hlive
    exact .inl ⟨rfl, handle_db_of_idle fun s _ _ _ hsome => by rw [hlive] at hsome; cases hsome⟩
  rename_i s hlive
  obtain rfl := hs.live_eq hlive
  split
  · rename_i next change answer hdecide
    have hperform : h.handle keys nowMs input =
        h.perform nowMs input h.db.state (Actor.handle keys h.db h.db.state nowMs input) := by
      refine handle_eq_perform hlive ?_ ?_ <;> rintro rfl <;> cases hdecide
    rw [hdecide] at hperform
    split
    · rename_i db hpersist
      refine .inr ⟨next, change, answer, db, hdecide, hpersist, rfl, ?_⟩
      simp only [hperform, perform, hpersist]
    · rename_i hpersist
      refine .inl ⟨rfl, ?_⟩
      simp only [hperform, perform, hpersist]
  all_goals
    rename_i hdecide
    refine .inl ⟨rfl, handle_db_of_idle fun s _ _ _ hsome hcommit => ?_⟩
    rw [← hs.live_eq hsome] at hcommit
    cases hdecide.symm.trans hcommit

/-- What every committed transaction preserves, over the rows and the turns so far, holds along
every run. -/
theorem Sound.turns_induction {P : Db κ → List (Turn κ) → Prop}
    (hcommit : ∀ (h : Host κ) turns nowMs input next change answer db, h.Sound keys →
      P h.db turns →
      Actor.handle keys h.db h.db.state nowMs input = .commit next change answer →
      h.db.persistInTransaction h.db.state.version next change nowMs = .ok db →
      P db (turns ++ [⟨⟨h.db.state, input, next⟩, nowMs, change⟩])) (hs : h.Sound keys)
    {before : List (Turn κ)} (hp : P h.db before) (inputs : List (UInt64 × Input)) :
    P (h.run keys inputs).db (before ++ h.turns keys inputs) := by
  induction inputs generalizing h before with
  | nil =>
    rw [turns, List.append_nil]
    exact hp
  | cons input inputs ih =>
    have hnext := hs.handle input.1 input.2
    simp only [turns, ← List.append_assoc]
    refine ih hnext ?_
    rcases hs.turn_cases input.1 input.2 with
      ⟨hturn, hdb⟩ | ⟨next, change, answer, db, hdecide, hpersist, hturn, hdb⟩
    · simpa [hturn, hdb] using hp
    · rw [hturn, hdb]
      exact hcommit h before input.1 input.2 next change answer db hs hp hdecide hpersist

variable {db : Db κ}

/-- A turn of a run, between the turns before and after it: the actor of a sound host decided it
and its transaction was accepted. -/
structure Takes (keys : HostKeys) (db : Db κ) (turn : Turn κ) (db' : Db κ) : Prop where
  sound : ∃ h : Host κ, h.Sound keys ∧ h.db = db
  before : turn.before = db.state
  decided : ∃ answer, Actor.handle keys db db.state turn.nowMs turn.input
    = .commit turn.next turn.change answer
  persisted : db.persistInTransaction db.state.version turn.next turn.change turn.nowMs = .ok db'

theorem Takes.move {turn : Turn κ} (h : Takes keys db turn db') :
    Move db turn.nowMs turn.before turn.input turn.next turn.change := by
  obtain ⟨answer, hdecide⟩ := h.decided
  rw [h.before]
  exact handle_move hdecide

theorem Takes.state {turn : Turn κ} (h : Takes keys db turn db') : db'.state = turn.next :=
  (Db.persistInTransaction_eq_ok h.persisted).2.state

theorem Takes.executionId {turn : Turn κ} (h : Takes keys db turn db') :
    turn.next.executionId = turn.before.executionId := by
  obtain ⟨answer, hdecide⟩ := h.decided
  rw [h.before]
  exact (handle_commit hdecide).sameExecution.executionId

theorem Sound.takes_or_idle (hs : h.Sound keys) (nowMs : UInt64) (input : Input) :
    h.turn keys nowMs input = none ∧ (h.handle keys nowMs input).1.db = h.db ∨
      ∃ turn, h.turn keys nowMs input = some turn ∧
        Takes keys h.db turn (h.handle keys nowMs input).1.db := by
  rcases hs.turn_cases nowMs input with hidle |
    ⟨next, change, answer, db, hdecide, hpersist, hturn, hdb⟩
  · exact .inl hidle
  · exact .inr ⟨_, hturn, ⟨h, hs, rfl⟩, rfl, ⟨answer, hdecide⟩, hdb.symm ▸ hpersist⟩

/-- What every turn preserves holds around every turn of a run. -/
theorem Sound.turns_split {I : Db κ → List (Turn κ) → Prop}
    (hstep : ∀ db turns turn db', I db turns → Takes keys db turn db' → I db' (turns ++ [turn]))
    (hs : h.Sound keys) (hp : I h.db []) (inputs : List (UInt64 × Input)) :
    I (h.run keys inputs).db (h.turns keys inputs) ∧
      ∀ before turn later, h.turns keys inputs = before ++ turn :: later →
        ∃ db db', Takes keys db turn db' ∧ I db before ∧ I db' (before ++ [turn]) := by
  refine turns_induction (P := fun db turns => I db turns ∧ ∀ before turn later,
    turns = before ++ turn :: later →
      ∃ db db', Takes keys db turn db' ∧ I db before ∧ I db' (before ++ [turn]))
    ?_ hs ⟨hp, ?_⟩ inputs
  · intro h turns nowMs input next change answer db hs ⟨hi, hsplit⟩ hdecide hpersist
    have htakes : Takes keys h.db ⟨⟨h.db.state, input, next⟩, nowMs, change⟩ db :=
      ⟨⟨h, hs, rfl⟩, rfl, ⟨answer, hdecide⟩, hpersist⟩
    refine ⟨hstep _ _ _ _ hi htakes, fun before turn later heq => ?_⟩
    -- the split is at the new turn or among the earlier ones
    rcases List.eq_nil_or_concat' later with rfl | ⟨front, last, rfl⟩
    · obtain ⟨rfl, hturn⟩ := List.append_inj' heq rfl
      obtain rfl := (List.cons.inj hturn).1
      exact ⟨h.db, db, htakes, hi, hstep _ _ _ _ hi htakes⟩
    · rw [← List.cons_append, ← List.append_assoc] at heq
      obtain ⟨hturns, -⟩ := List.append_inj' heq rfl
      exact hsplit before turn front hturns
  · intro before turn later heq
    simp at heq

end Host

end Arena0
