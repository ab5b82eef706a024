import Arena0.Turns
import Arena0.ReferenceHost

/-!
# Callout identities

The identity of an open callout is derived from the position of the event that
opened it.  Positions advance when a dispatch is installed or staged, while the
callout of a staged dispatch opens only at its certification, so every open or
staged callout is traced to the one event that asked for it.  Identities are then
distinct where the questions are, as long as the identity hash does not collide
on the positions of the run.
-/

namespace Arena0

open Borsh Fallible Actor ExecutionState

variable {κ : Primitives}

namespace Turn

def answered (turn : Turn κ) : Option UInt64 :=
  match turn.change, turn.input with
  | .dispatch .., .submit pendingId _ _ => some pendingId
  | _, _ => none

def installs (turn : Turn κ) : Option UInt64 :=
  match turn.change with
  | .dispatch event _ _ => if event.isAgreed then none else some turn.before.eventPosition
  | .stepSignature (some proposal) => some proposal.eventPosition
  | _ => none

def Discards (turn : Turn κ) : Prop :=
  turn.before.proposal ≠ none ∧ turn.next.proposal = none ∧ turn.installs = none

end Turn

def eventPositions (turns : List (Turn κ)) : Set UInt64 :=
  {position | ∃ turn ∈ turns, turn.event.isSome = true ∧ turn.before.eventPosition = position}

/-- A turn that asked for a callout, among the turns so far. -/
structure AskedBy (executionId : ExecId) (turns : List (Turn κ)) (c : OpenCallout)
    (asking : Turn κ) : Prop where
  mem : asking ∈ turns
  event : asking.event.isSome = true
  id : c.id = calloutId κ executionId asking.before.eventPosition
  request : asking.input.requested = some ⟨c.calloutIndex, c.context⟩

/-- A callout asked for by a turn that no later answer followed. -/
def Pending (executionId : ExecId) (turns : List (Turn κ)) (c : OpenCallout) : Prop :=
  ∃ asking, AskedBy executionId turns c asking ∧ ∀ turn ∈ turns, turn.answered.isSome = true →
    turn.before.eventPosition ≤ asking.before.eventPosition

/-- What holds between the turns of a run and its aggregate. -/
structure CalloutsTracked (executionId : ExecId) (turns : List (Turn κ)) (s : ExecutionState κ) :
    Prop where
  executionId_eq : s.executionId = executionId
  positions : ∀ turn ∈ turns, turn.before.eventPosition ≤ s.eventPosition ∧
    (turn.event.isSome = true → turn.before.eventPosition < s.eventPosition)
  unique : ∀ a ∈ turns, ∀ b ∈ turns, a.event.isSome = true → b.event.isSome = true →
    a.before.eventPosition = b.before.eventPosition → a = b
  past : ∀ turn ∈ turns, ∀ c ∈ turn.next.callout, ∃ asking, AskedBy executionId turns c asking
  opened : ∀ c ∈ s.callout, Pending executionId turns c
  staged : ∀ proposal ∈ s.proposal, ∀ c ∈ proposal.callout, Pending executionId turns c
  stagedBy : ∀ proposal ∈ s.proposal, ∃ turn ∈ turns, ∃ event, turn.event = some event ∧
    turn.before.eventPosition = proposal.eventPosition ∧ turn.before.callout = s.callout ∧
    turn.before.executionId = executionId ∧
    proposal.callout = turn.before.nextOpenCallout event turn.before.eventPosition proposal.status
      turn.input.requested
  -- nothing was opened that the staged event asked for
  unopened : ∀ proposal ∈ s.proposal, ∀ c, c ∈ s.callout ∨ (∃ turn ∈ turns, c ∈ turn.next.callout) →
    ∃ asking, AskedBy executionId turns c asking ∧
      asking.before.eventPosition < proposal.eventPosition
  inactive : s.status ≠ .active → s.callout = none
  running : s.proposal ≠ none → s.status = .active
  discarded : (∃ turn ∈ turns, turn.Discards) → s.status.isTerminal = true

/-! ## Steps -/

variable {c : OpenCallout} {turn : Turn κ}

theorem AskedBy.mono {executionId : ExecId} {turns more : List (Turn κ)} {asking : Turn κ}
    (h : AskedBy executionId turns c asking) : AskedBy executionId (turns ++ more) c asking :=
  ⟨List.mem_append_left _ h.mem, h.event, h.id, h.request⟩

private theorem Pending.step {executionId : ExecId} {turns : List (Turn κ)}
    (h : Pending executionId turns c) (hanswered : turn.answered = none) :
    Pending executionId (turns ++ [turn]) c := by
  obtain ⟨asking, hasked, hlater⟩ := h
  refine ⟨asking, hasked.mono, ?_⟩
  rw [List.forall_mem_append, List.forall_mem_singleton, hanswered]
  exact ⟨hlater, nofun⟩

variable {s : ExecutionState κ} {event : Event} {status : ExecutionStatus κ}

theorem mem_nextOpenCallout {position : UInt64}
    {request : Option CalloutRequest} (h : c ∈ s.nextOpenCallout event position status request) :
    status = .active ∧ request = some ⟨c.calloutIndex, c.context⟩ ∧
      (c ∈ s.callout ∧ event.isInput = false ∨ c.id = calloutId κ s.executionId position) := by
  unfold nextOpenCallout at h
  split at h
  · rename_i hactive
    simp only [Option.mem_def, Option.map_eq_some_iff] at h
    obtain ⟨r, rfl, hc⟩ := h
    refine ⟨hactive, ?_⟩
    split at hc
    · rename_i current hcurrent
      split at hc
      · rename_i hsame
        subst hc
        exact ⟨by rw [hsame.2.1, hsame.2.2], .inl ⟨hcurrent, hsame.1⟩⟩
      · subst hc
        exact ⟨rfl, .inr rfl⟩
    · subst hc
      exact ⟨rfl, .inr rfl⟩
  · cases h

theorem nextOpenCallout_same {position : UInt64} (hopen : s.callout = some c)
    (hevent : event.isInput = false) :
    s.nextOpenCallout event position .active (some ⟨c.calloutIndex, c.context⟩) = some c := by
  simp [nextOpenCallout, hopen, hevent]

variable {db : Db κ} {nowMs : UInt64} {input : Input} {timerId : Option TimerId}

theorem EventSource.pendingId {pendingId : Option UInt64}
    (h : EventSource db nowMs s input event pendingId timerId) (t : ExecutionState κ)
    (effects : List Effect) :
    (⟨⟨s, input, t⟩, nowMs, .dispatch event effects timerId⟩ : Turn κ).answered = pendingId ∧
      event.isInput = pendingId.isSome := by
  cases h <;> exact ⟨rfl, rfl⟩

theorem EventSource.answered_eq_none {pendingId : Option UInt64}
    (h : EventSource db nowMs s input event pendingId timerId) (hevent : event.isInput = false)
    (t : ExecutionState κ) (effects : List Effect) :
    (⟨⟨s, input, t⟩, nowMs, .dispatch event effects timerId⟩ : Turn κ).answered = none := by
  obtain ⟨hanswered, hinput⟩ := h.pendingId t effects
  rw [hevent] at hinput
  exact hanswered.trans (Option.isNone_iff_eq_none.1 (by simpa using hinput.symm))

theorem Event.isInput_of_isAgreed (h : event.isAgreed = true) : event.isInput = false := by
  cases event <;> first | rfl | cases h

theorem validateCalloutDispatch_answer {id : UInt64}
    (h : s.validateCalloutDispatch event (some id) = .ok ()) : ∃ c ∈ s.callout, c.id = id := by
  cases event with
  | inputReceived calloutIndex data =>
    simp only [validateCalloutDispatch, bind_eq_ok, okOr_eq_ok, ensure_eq_ok] at h
    obtain ⟨answerId, hanswer, opened, hopened, _, hid, -⟩ := h
    cases hanswer
    exact ⟨opened, hopened, hid⟩
  | _ =>
    simp only [validateCalloutDispatch, ensure_eq_ok] at h
    cases h

theorem Move.position {t : ExecutionState κ} {change : Change κ}
    (h : Move db nowMs s input t change) :
    s.eventPosition ≤ t.eventPosition ∧
      ((⟨⟨s, input, t⟩, nowMs, change⟩ : Turn κ).event.isSome = true →
        s.eventPosition < t.eventPosition) := by
  cases h with
  | installed _ _ _ _ _ _ _ _ _ hposition =>
    exact ⟨UInt64.le_of_lt (lt_of_checkedAdd_one hposition), fun _ => lt_of_checkedAdd_one hposition⟩
  | staged _ _ _ _ _ _ hposition ht =>
    subst ht
    exact ⟨UInt64.le_of_lt (lt_of_checkedAdd_one hposition), fun _ => lt_of_checkedAdd_one hposition⟩
  | signed _ _ ht =>
    subst ht
    exact ⟨UInt64.le_refl _, nofun⟩
  | certified _ _ hcertifies =>
    exact ⟨UInt64.le_of_eq hcertifies.installs.2.2.2.2.symm, nofun⟩
  | dropped _ _ _ _ ht =>
    subst ht
    exact ⟨UInt64.le_refl _, nofun⟩
  | stopped _ ht =>
    subst ht
    exact ⟨UInt64.le_refl _, nofun⟩
  | kept hchange hsame =>
    refine ⟨UInt64.le_of_eq hsame.eventPosition.symm, ?_⟩
    rcases hchange with rfl | ⟨artifact, rfl⟩ <;> exact nofun

section

variable {executionId : ExecId} {turns : List (Turn κ)} {db : Db κ} {nowMs : UInt64}
  {s t : ExecutionState κ} {input : Input} {change : Change κ}

private theorem CalloutsTracked.positions_step (h : CalloutsTracked executionId turns s)
    (hmove : Move db nowMs s input t change) :
    ∀ turn ∈ turns ++ [⟨⟨s, input, t⟩, nowMs, change⟩],
      turn.before.eventPosition ≤ t.eventPosition ∧
        (turn.event.isSome = true → turn.before.eventPosition < t.eventPosition) := by
  obtain ⟨hle, hlt⟩ := hmove.position
  rw [List.forall_mem_append, List.forall_mem_singleton]
  refine ⟨fun turn hturn => ?_, hle, hlt⟩
  obtain ⟨hbefore, hevent⟩ := h.positions turn hturn
  exact ⟨UInt64.le_trans hbefore hle, fun hsome => UInt64.lt_of_lt_of_le (hevent hsome) hle⟩

private theorem CalloutsTracked.unique_step (h : CalloutsTracked executionId turns s)
    (turn : Turn κ) (hbefore : turn.before = s) :
    ∀ a ∈ turns ++ [turn], ∀ b ∈ turns ++ [turn], a.event.isSome = true → b.event.isSome = true →
      a.before.eventPosition = b.before.eventPosition → a = b := by
  -- earlier events are at earlier positions
  have hnew : ∀ a ∈ turns, a.event.isSome = true →
      a.before.eventPosition ≠ turn.before.eventPosition := by
    intro a ha hevent heq
    have hlt := (h.positions a ha).2 hevent
    rw [heq, hbefore] at hlt
    exact UInt64.lt_irrefl _ hlt
  simp only [List.forall_mem_append, List.forall_mem_singleton]
  refine ⟨fun a ha => ⟨h.unique a ha, fun haevent _ heq => ?_⟩,
    fun b hb _ hbevent heq => ?_, fun _ _ _ => trivial⟩
  · exact absurd heq (hnew a ha haevent)
  · exact absurd heq.symm (hnew b hb hbevent)

private theorem CalloutsTracked.past_step (h : CalloutsTracked executionId turns s) (turn : Turn κ)
    (hopened : ∀ c ∈ turn.next.callout, Pending executionId (turns ++ [turn]) c) :
    ∀ other ∈ turns ++ [turn], ∀ c ∈ other.next.callout,
      ∃ asking, AskedBy executionId (turns ++ [turn]) c asking := by
  rw [List.forall_mem_append, List.forall_mem_singleton]
  refine ⟨fun other hother c hc => ?_, fun c hc => ?_⟩
  · obtain ⟨asking, hasked⟩ := h.past other hother c hc
    exact ⟨asking, hasked.mono⟩
  · obtain ⟨asking, hasked, -⟩ := hopened c hc
    exact ⟨asking, hasked⟩

theorem CalloutsTracked.pending_next (h : CalloutsTracked executionId turns s) {event : Event}
    {pendingId : Option UInt64} {effects : List Effect}
    (hsource : EventSource db nowMs s input event pendingId timerId) :
    ∀ c ∈ s.nextOpenCallout event s.eventPosition status input.requested,
      Pending executionId (turns ++ [⟨⟨s, input, t⟩, nowMs, .dispatch event effects timerId⟩]) c := by
  intro c hc
  obtain ⟨-, hrequest, ⟨hcurrent, hevent⟩ | hid⟩ := mem_nextOpenCallout hc
  · -- a repeated question was pending before, and this event answers nothing
    exact (h.opened c hcurrent).step (hsource.answered_eq_none hevent t effects)
  · refine ⟨⟨⟨s, input, t⟩, nowMs, .dispatch event effects timerId⟩, ⟨?_, rfl, ?_, hrequest⟩, ?_⟩
    · exact List.mem_append_right _ (List.mem_singleton_self _)
    · rw [hid, h.executionId_eq]
    · rw [List.forall_mem_append, List.forall_mem_singleton]
      exact ⟨fun other hother _ => (h.positions other hother).1, fun _ => UInt64.le_refl _⟩

theorem CalloutsTracked.asked_before (h : CalloutsTracked executionId turns s) {c : OpenCallout}
    {asking : Turn κ} (hasked : AskedBy executionId turns c asking) :
    asking.before.eventPosition < s.eventPosition :=
  (h.positions asking hasked.mem).2 hasked.event

theorem CalloutsTracked.not_discards (h : CalloutsTracked executionId turns s)
    (hrunning : s.status.isTerminal = false) : ¬ ∃ turn ∈ turns, turn.Discards := by
  intro hdiscards
  have hterminal := h.discarded hdiscards
  rw [hrunning] at hterminal
  cases hterminal

private theorem CalloutsTracked.keep (h : CalloutsTracked executionId turns s)
    (hmove : Move db nowMs s input t change) (hexecution : t.executionId = s.executionId)
    (hanswered : (⟨⟨s, input, t⟩, nowMs, change⟩ : Turn κ).answered = none)
    (hcallout : t.callout = s.callout ∨ t.callout = none ∧ s.proposal = none)
    (hproposal : ∀ proposal ∈ t.proposal, ∃ staged ∈ s.proposal,
      proposal = { staged with signatures := proposal.signatures })
    (hnone : t.proposal = none → s.proposal = none)
    (hactive : s.status = .active → t.status = .active)
    (hterminal : t.status.isTerminal = s.status.isTerminal)
    (hopen : s.status ≠ .active → t.callout = none) :
    CalloutsTracked executionId (turns ++ [⟨⟨s, input, t⟩, nowMs, change⟩]) t := by
  have hmem : ∀ c ∈ t.callout, c ∈ s.callout := by
    rcases hcallout with hcallout | ⟨hcallout, -⟩
    · exact hcallout ▸ fun c hc => hc
    · simp [hcallout]
  have hopened : ∀ c ∈ t.callout,
      Pending executionId (turns ++ [⟨⟨s, input, t⟩, nowMs, change⟩]) c :=
    fun c hc => (h.opened c (hmem c hc)).step hanswered
  refine ⟨hexecution.trans h.executionId_eq, h.positions_step hmove, h.unique_step _ rfl,
    h.past_step _ hopened, hopened, ?_, ?_, ?_, ?_, ?_, ?_⟩
  · intro proposal hp c hc
    obtain ⟨staged, hstaged, heq⟩ := hproposal proposal hp
    rw [heq] at hc
    exact (h.staged staged hstaged c hc).step hanswered
  · intro proposal hp
    obtain ⟨staged, hstaged, heq⟩ := hproposal proposal hp
    obtain ⟨turn, hturn, event, hevent, hposition, hbefore, hid, hnext⟩ := h.stagedBy staged hstaged
    refine ⟨turn, List.mem_append_left _ hturn, event, hevent, by rw [hposition, heq], ?_, hid, ?_⟩
    · rcases hcallout with hcallout | ⟨-, hfree⟩
      · rw [hbefore, hcallout]
      · rw [hfree] at hstaged
        cases hstaged
    · rw [heq]
      exact hnext
  · intro proposal hp
    obtain ⟨staged, hstaged, heq⟩ := hproposal proposal hp
    have hposition : proposal.eventPosition = staged.eventPosition := by rw [heq]
    intro c hc
    have hseen : c ∈ s.callout ∨ ∃ turn ∈ turns, c ∈ turn.next.callout := by
      rcases hc with hc | ⟨turn, hturn, hc⟩
      · exact .inl (hmem c hc)
      · rcases List.mem_append.1 hturn with hturn | hturn
        · exact .inr ⟨turn, hturn, hc⟩
        · obtain rfl := List.mem_singleton.1 hturn
          exact .inl (hmem c hc)
    obtain ⟨asking, hasked, hlt⟩ := h.unopened staged hstaged c hseen
    exact ⟨asking, hasked.mono, hposition ▸ hlt⟩
  · intro hstatus
    exact hopen fun hs => hstatus (hactive hs)
  · intro hp
    obtain ⟨proposal, hproposal'⟩ := Option.ne_none_iff_exists'.1 hp
    obtain ⟨staged, hstaged, -⟩ := hproposal proposal hproposal'
    exact hactive (h.running fun hnone => by rw [hnone] at hstaged; cases hstaged)
  · rintro ⟨turn, hturn, hdiscards⟩
    rw [hterminal]
    rcases List.mem_append.1 hturn with hturn | hturn
    · exact h.discarded ⟨turn, hturn, hdiscards⟩
    · obtain rfl := List.mem_singleton.1 hturn
      exact absurd (hnone hdiscards.2.1) hdiscards.1

theorem CalloutsTracked.settle (h : CalloutsTracked executionId turns s)
    (hmove : Move db nowMs s input t change) (hexecution : t.executionId = s.executionId)
    (hproposal : t.proposal = none)
    (hopened : ∀ c ∈ t.callout, Pending executionId (turns ++ [⟨⟨s, input, t⟩, nowMs, change⟩]) c)
    (hinactive : t.status ≠ .active → t.callout = none)
    (hdiscards : t.status.isTerminal = true ∨ s.status.isTerminal = false ∧
      ¬ (⟨⟨s, input, t⟩, nowMs, change⟩ : Turn κ).Discards) :
    CalloutsTracked executionId (turns ++ [⟨⟨s, input, t⟩, nowMs, change⟩]) t := by
  refine ⟨hexecution.trans h.executionId_eq, h.positions_step hmove, h.unique_step _ rfl,
    h.past_step _ hopened, hopened, ?_, ?_, ?_, hinactive, ?_, ?_⟩
  · simp [hproposal]
  · simp [hproposal]
  · simp [hproposal]
  · exact fun hp => absurd hproposal hp
  · rintro ⟨turn, hturn, hturnDiscards⟩
    rcases hdiscards with hterminal | ⟨hrunning, hnot⟩
    · exact hterminal
    · rcases List.mem_append.1 hturn with hturn | hturn
      · exact absurd ⟨turn, hturn, hturnDiscards⟩ (h.not_discards hrunning)
      · obtain rfl := List.mem_singleton.1 hturn
        exact absurd hturnDiscards hnot

theorem CalloutsTracked.stage (h : CalloutsTracked executionId turns s) {event : Event}
    {result : DispatchResult κ} {pendingId : Option UInt64}
    {proposal : SharedProposal κ} {position version : UInt64}
    (hmove : Move db nowMs s input t (.dispatch event result.effects timerId))
    (hsource : EventSource db nowMs s input event pendingId timerId)
    (hrequested : input.requested = result.callout) (hagreed : event.isAgreed = true)
    (hactive : s.status = .active) (hstaged : StagedBy s event result proposal)
    (ht : t = { s with
      eventPosition := position, proposal := some proposal, version := version }) :
    CalloutsTracked executionId
      (turns ++ [⟨⟨s, input, t⟩, nowMs, .dispatch event result.effects timerId⟩]) t := by
  have hanswered : (⟨⟨s, input, t⟩, nowMs, .dispatch event result.effects timerId⟩ :
      Turn κ).answered = none :=
    hsource.answered_eq_none (Event.isInput_of_isAgreed hagreed) t result.effects
  have hcallout : t.callout = s.callout := by rw [ht]
  have hproposal : t.proposal = some proposal := by rw [ht]
  have hstatus : t.status = .active := by rw [ht, hactive]
  have hopened : ∀ c ∈ t.callout, Pending executionId
      (turns ++ [⟨⟨s, input, t⟩, nowMs, .dispatch event result.effects timerId⟩]) c := by
    rw [hcallout]
    exact fun c hc => (h.opened c hc).step hanswered
  have hnext : proposal.callout =
      s.nextOpenCallout event s.eventPosition proposal.status input.requested := by
    rw [hstaged.callout_eq, hrequested]
  refine ⟨(by rw [ht]; exact h.executionId_eq), h.positions_step hmove, h.unique_step _ rfl,
    h.past_step _ hopened, hopened, ?_, ?_, ?_, (fun hne => absurd hstatus hne), fun _ => hstatus, ?_⟩
  · rw [hproposal]
    rintro p hp c hc
    cases hp
    rw [hnext] at hc
    exact h.pending_next hsource c hc
  · rw [hproposal]
    rintro p hp
    cases hp
    exact ⟨_, List.mem_append_right _ (List.mem_singleton_self _), event, rfl,
      hstaged.position_eq.symm, hcallout.symm, h.executionId_eq, hnext⟩
  · rw [hproposal]
    rintro p hp c hc
    cases hp
    rw [hstaged.position_eq]
    -- everything open so far was asked for at an earlier position
    obtain ⟨asking, hasked⟩ : ∃ asking, AskedBy executionId turns c asking := by
      have hcurrent : c ∈ s.callout → ∃ asking, AskedBy executionId turns c asking := by
        intro hc
        obtain ⟨asking, hasked, -⟩ := h.opened c hc
        exact ⟨asking, hasked⟩
      rcases hc with hc | ⟨turn, hturn, hc⟩
      · exact hcurrent (hcallout ▸ hc)
      · rcases List.mem_append.1 hturn with hturn | hturn
        · exact h.past turn hturn c hc
        · obtain rfl := List.mem_singleton.1 hturn
          exact hcurrent (hcallout ▸ hc)
    exact ⟨asking, hasked.mono, h.asked_before hasked⟩
  · rintro ⟨turn, hturn, hdiscards⟩
    rcases List.mem_append.1 hturn with hturn | hturn
    · exact absurd ⟨turn, hturn, hdiscards⟩ (h.not_discards (by rw [hactive]; rfl))
    · obtain rfl := List.mem_singleton.1 hturn
      exact absurd (hproposal.symm.trans hdiscards.2.1) nofun

/-- Every committed transition keeps the callouts tracked. -/
private theorem CalloutsTracked.step (h : CalloutsTracked executionId turns s)
    (hmove : Move db nowMs s input t change) (hexecution : t.executionId = s.executionId) :
    CalloutsTracked executionId (turns ++ [⟨⟨s, input, t⟩, nowMs, change⟩]) t := by
  have hmove' := hmove
  cases hmove with
  | installed hdispatched hlocal hactive hfree _ _ hopen hproposal hstatus _ =>
    refine h.settle hmove' hexecution hproposal ?_ (fun hne => absurd hstatus hne)
      (.inr ⟨by rw [hactive]; rfl, fun hdiscards => hdiscards.1 hfree⟩)
    rw [hopen, ← hdispatched.requested]
    exact h.pending_next hdispatched.source
  | staged hdispatched hagreed hactive _ _ hstaged _ ht =>
    exact h.stage hmove' hdispatched.source hdispatched.requested hagreed hactive hstaged ht
  | signed hproposal hsigned ht =>
    subst ht
    refine h.keep hmove' hexecution rfl (.inl rfl) ?_ nofun id rfl h.inactive
    rintro p hp
    cases hp
    exact ⟨_, hproposal, hsigned⟩
  | @certified proposal signed certificate hproposal hsigned hcertifies =>
    have hrunning := h.running (hproposal ▸ nofun)
    obtain ⟨turn, hturn, event, -, -, -, -, hnext⟩ := h.stagedBy proposal hproposal
    obtain ⟨hcallout, -, hstatus, hnone, -⟩ := hcertifies.installs
    replace hcallout := hcallout.trans (congrArg SharedProposal.callout hsigned)
    replace hstatus := hstatus.trans (congrArg SharedProposal.status hsigned)
    refine h.settle hmove' hexecution hnone ?_ ?_ (.inr ⟨by rw [hrunning]; rfl, ?_⟩)
    · rw [hcallout]
      exact fun c hc => (h.staged proposal hproposal c hc).step rfl
    · intro hne
      rw [hcallout]
      show proposal.callout = none
      rw [hnext, nextOpenCallout, if_neg (hstatus ▸ hne)]
    · exact fun hdiscards => nomatch hdiscards.2.2
  | dropped hinput hactive hfree _ ht =>
    subst ht
    exact h.keep hmove' hexecution rfl (.inl rfl) (by simp [hfree]) id id rfl h.inactive
  | stopped hrunning ht =>
    obtain ⟨hcallout, hproposal, hterminal⟩ :
        t.callout = none ∧ t.proposal = none ∧ t.status.isTerminal = true := by
      rw [ht]
      exact ⟨rfl, rfl, rfl⟩
    exact h.settle hmove' hexecution hproposal (by simp [hcallout]) (fun _ => hcallout)
      (.inl hterminal)
  | kept hchange hsame hcallout hterminal hactive =>
    have hanswered : (⟨⟨s, input, t⟩, nowMs, change⟩ : Turn κ).answered = none := by
      rcases hchange with rfl | ⟨artifact, rfl⟩ <;> rfl
    have hproposal : t.proposal = s.proposal := hsame.proposal
    refine h.keep hmove' hexecution hanswered ?_ ?_ (fun hnone => hproposal ▸ hnone) hactive
      hterminal ?_
    · refine hcallout.imp_right fun ⟨hnone, hconcluded⟩ => ⟨hnone, ?_⟩
      -- a concluded execution has nothing staged
      by_contra hstaged
      rw [h.running hstaged] at hconcluded
      cases hconcluded
    · exact fun p hp => ⟨p, hproposal ▸ hp, rfl⟩
    · intro hne
      rcases hcallout with hcallout | ⟨hnone, -⟩
      · exact hcallout.trans (h.inactive hne)
      · exact hnone

end

/-! ## Runs -/

structure CalloutsFresh (executionId : ExecId) (turns : List (Turn κ)) : Prop where
  /-- An accepted answer names the open callout, which is never open or answered again. -/
  answered : ∀ before turn later, turns = before ++ turn :: later →
    ∀ id, turn.answered = some id → (∃ c ∈ turn.before.callout, c.id = id) ∧
      (∀ after ∈ turn :: later, ∀ c ∈ after.next.callout, c.id ≠ id) ∧
      ∀ after ∈ later, after.answered ≠ some id
  /-- Across an event that is no answer, the open callout keeps its identity exactly if the
  execution stays active and the program asks the same question again. -/
  kept : ∀ asking ∈ turns, ∀ event, asking.event = some event → event.isInput = false →
    ∀ turn ∈ turns, turn.installs = some asking.before.eventPosition →
      ∀ c ∈ turn.before.callout, (∃ d ∈ turn.next.callout, d.id = c.id) ↔
        turn.next.status = .active ∧
          asking.input.requested = some ⟨c.calloutIndex, c.context⟩
  /-- Different questions have different identities. -/
  distinct : ∀ a ∈ turns, ∀ b ∈ turns, ∀ c ∈ a.next.callout, ∀ d ∈ b.next.callout,
    ¬ (c.calloutIndex = d.calloutIndex ∧ c.context = d.context) → c.id ≠ d.id
  /-- Callouts on the two sides of an answer have different identities. -/
  separated : ∀ before turn later, turns = before ++ turn :: later →
    turn.answered.isSome = true → ∀ a ∈ before, ∀ b ∈ turn :: later,
      ∀ c ∈ a.next.callout, ∀ d ∈ b.next.callout, c.id ≠ d.id
  inactive : ∀ turn ∈ turns, turn.next.status ≠ .active → turn.next.callout = none
  /-- No callout of a discarded proposal is open at any time, and none is open after it. -/
  discarded : ∀ before turn later, turns = before ++ turn :: later → turn.Discards →
    (∀ after ∈ turn :: later, after.next.callout = none) ∧
      ∀ proposal ∈ turn.before.proposal, ∀ other ∈ turns, ∀ c ∈ other.next.callout,
        c.id ≠ calloutId κ executionId proposal.eventPosition

theorem Move.answers_open {t : ExecutionState κ} {change : Change κ}
    (h : Move db nowMs s input t change) {id : UInt64}
    (hanswered : (⟨⟨s, input, t⟩, nowMs, change⟩ : Turn κ).answered = some id) :
    ∃ c ∈ s.callout, c.id = id := by
  have hdispatch : ∀ {event result pendingId timerId},
      CommittedDispatch db nowMs s input event result pendingId timerId t →
      s.validateCalloutDispatch event pendingId = .ok () →
      (⟨⟨s, input, t⟩, nowMs, .dispatch event result.effects timerId⟩ : Turn κ).answered = some id →
      ∃ c ∈ s.callout, c.id = id := by
    intro event result pendingId timerId hdispatched hcallout hanswered
    obtain rfl := (hdispatched.source.pendingId t result.effects).1.symm.trans hanswered
    exact validateCalloutDispatch_answer hcallout
  cases h with
  | installed hdispatched _ _ _ hcallout _ _ _ _ _ => exact hdispatch hdispatched hcallout hanswered
  | staged hdispatched _ _ _ hcallout _ _ _ => exact hdispatch hdispatched hcallout hanswered
  | kept hchange => rcases hchange with rfl | ⟨artifact, rfl⟩ <;> cases hanswered
  | _ => cases hanswered

private theorem keeps_id_iff {position : UInt64}
    {request : Option CalloutRequest} (hopen : s.callout = some c) (hevent : event.isInput = false)
    (hnew : c.id ≠ calloutId κ s.executionId position) :
    (∃ d ∈ s.nextOpenCallout event position status request, d.id = c.id) ↔
      status = .active ∧ request = some ⟨c.calloutIndex, c.context⟩ := by
  constructor
  · rintro ⟨d, hd, hid⟩
    obtain ⟨hactive, hrequest, ⟨hcurrent, -⟩ | hfresh⟩ := mem_nextOpenCallout hd
    · obtain rfl := Option.some.inj (hopen.symm.trans hcurrent)
      exact ⟨hactive, hrequest⟩
    · exact absurd (hid.symm.trans hfresh) hnew
  · rintro ⟨rfl, rfl⟩
    exact ⟨c, nextOpenCallout_same hopen hevent, rfl⟩

namespace Host

theorem Created.callouts_tracked {keys : HostKeys} {db : Db κ} (hcreated : Created keys db)
    (inputs : List (UInt64 × Input)) :
    CalloutsTracked db.state.executionId ((initial db).turns keys inputs)
        ((initial db).run keys inputs).db.state ∧
      ∀ before turn later, (initial db).turns keys inputs = before ++ turn :: later →
        (∃ rows, Move rows turn.nowMs turn.before turn.input turn.next turn.change) ∧
        CalloutsTracked db.state.executionId before turn.before ∧
        CalloutsTracked db.state.executionId (before ++ [turn]) turn.next := by
  obtain ⟨hnone, hstatus, -, -, -, hcallout, -⟩ := hcreated.fresh
  have hstart : CalloutsTracked db.state.executionId [] db.state :=
    { executionId_eq := rfl
      positions := List.forall_mem_nil _
      unique := List.forall_mem_nil _
      past := List.forall_mem_nil _
      opened := by simp [hcallout]
      staged := by simp [hnone]
      stagedBy := by simp [hnone]
      unopened := by simp [hnone]
      inactive := fun _ => hcallout
      running := fun h => absurd hnone h
      discarded := by simp }
  obtain ⟨hend, hsplit⟩ := Sound.turns_split
    (I := fun rows turns => CalloutsTracked db.state.executionId turns rows.state)
    (fun rows turns turn rows' htracked htakes => by
      rw [htakes.state]
      rw [← htakes.before] at htracked
      exact htracked.step htakes.move htakes.executionId) hcreated.sound hstart inputs
  refine ⟨hend, fun before turn later heq => ?_⟩
  obtain ⟨rows, rows', htakes, hbefore, hafter⟩ := hsplit before turn later heq
  refine ⟨⟨rows, htakes.move⟩, ?_, ?_⟩
  · rw [htakes.before]
    exact hbefore
  · rw [← htakes.state]
    exact hafter

section

variable {keys : HostKeys} {db : Db κ} {inputs : List (UInt64 × Input)}

variable {c : OpenCallout}

theorem ids_ne_of_positions_ne {executionId : ExecId} {turns l l' : List (Turn κ)}
    (hfree : Set.InjOn (calloutId κ executionId) (eventPositions turns)) (hl : l ⊆ turns)
    (hl' : l' ⊆ turns) {d : OpenCallout} {a b : Turn κ} (ha : AskedBy executionId l c a)
    (hb : AskedBy executionId l' d b) (hne : a.before.eventPosition ≠ b.before.eventPosition) :
    c.id ≠ d.id := by
  intro hid
  rw [ha.id, hb.id] at hid
  exact hne (hfree ⟨a, hl ha.mem, ha.event, rfl⟩ ⟨b, hl' hb.mem, hb.event, rfl⟩ hid)

theorem Created.asked_before (hcreated : Created keys db) {before later : List (Turn κ)}
    (hsplit : (initial db).turns keys inputs = before ++ turn :: later)
    (hc : c ∈ turn.before.callout ∨ ∃ a ∈ before, c ∈ a.next.callout) :
    ∃ asking, AskedBy db.state.executionId before c asking ∧
      asking.before.eventPosition < turn.before.eventPosition := by
  obtain ⟨-, htracked, -⟩ := (hcreated.callouts_tracked inputs).2 before turn later hsplit
  rcases hc with hc | ⟨a, ha, hc⟩
  · obtain ⟨asking, hasked, -⟩ := htracked.opened c hc
    exact ⟨asking, hasked, htracked.asked_before hasked⟩
  · obtain ⟨asking, hasked⟩ := htracked.past a ha c hc
    exact ⟨asking, hasked, htracked.asked_before hasked⟩

theorem Created.asked_after (hcreated : Created keys db) {before later : List (Turn κ)}
    (hsplit : (initial db).turns keys inputs = before ++ turn :: later)
    (hanswered : turn.answered.isSome = true)
    (hc : (∃ b ∈ turn :: later, c ∈ b.next.callout) ∨ ∃ b ∈ later, c ∈ b.before.callout) :
    ∃ asking, AskedBy db.state.executionId ((initial db).turns keys inputs) c asking ∧
      turn.before.eventPosition ≤ asking.before.eventPosition := by
  have htracked := (hcreated.callouts_tracked inputs).2
  -- the callout is open at a state whose turns contain the answer
  obtain ⟨l, rest, s, hl, hmem, hstate, hc⟩ : ∃ l rest s,
      (initial db).turns keys inputs = l ++ rest ∧ turn ∈ l ∧
        CalloutsTracked db.state.executionId l s ∧ c ∈ s.callout := by
    rcases hc with ⟨b, hb, hc⟩ | ⟨b, hb, hc⟩
    · rcases List.mem_cons.1 hb with rfl | hb
      · exact ⟨before ++ [b], later, b.next, by simp [hsplit], by simp,
          (htracked before b later hsplit).2.2, hc⟩
      · obtain ⟨front, back, rfl⟩ := List.append_of_mem hb
        have hb' : (initial db).turns keys inputs = (before ++ turn :: front) ++ b :: back := by
          simp [hsplit]
        exact ⟨_, back, b.next, by rw [hb', List.append_cons], by simp,
          (htracked _ b back hb').2.2, hc⟩
    · obtain ⟨front, back, rfl⟩ := List.append_of_mem hb
      have hb' : (initial db).turns keys inputs = (before ++ turn :: front) ++ b :: back := by
        simp [hsplit]
      exact ⟨_, b :: back, b.before, hb', by simp, (htracked _ b back hb').2.1, hc⟩
  obtain ⟨asking, hasked, hlater⟩ := hstate.opened c hc
  refine ⟨asking, ?_, hlater turn hmem hanswered⟩
  rw [hl]
  exact hasked.mono

private theorem Created.keeps_id (hcreated : Created keys db)
    (hfree : Set.InjOn (calloutId κ db.state.executionId)
      (eventPositions ((initial db).turns keys inputs))) {asking turn : Turn κ} {event : Event}
    (hasking : asking ∈ (initial db).turns keys inputs) (hevent : asking.event = some event)
    (hinput : event.isInput = false) (hturn : turn ∈ (initial db).turns keys inputs)
    (hinstalls : turn.installs = some asking.before.eventPosition) (hc : c ∈ turn.before.callout) :
    (∃ d ∈ turn.next.callout, d.id = c.id) ↔
      turn.next.status = .active ∧
        asking.input.requested = some ⟨c.calloutIndex, c.context⟩ := by
  obtain ⟨hend, htracked⟩ := hcreated.callouts_tracked inputs
  obtain ⟨before, later, hsplit⟩ := List.append_of_mem hturn
  obtain ⟨⟨rows, hmove⟩, hstate, -⟩ := htracked before turn later hsplit
  have hbefore : before ⊆ (initial db).turns keys inputs := by
    rw [hsplit]
    exact List.subset_append_left _ _
  -- an identity derived at the event's own position is a new one
  have hnew : ∀ {old : Turn κ}, AskedBy db.state.executionId before c old →
      old.before.eventPosition < asking.before.eventPosition →
      c.id ≠ calloutId κ db.state.executionId asking.before.eventPosition := by
    intro old hold hlt hid
    have heq := hfree ⟨old, hbefore hold.mem, hold.event, rfl⟩
      ⟨asking, hasking, by rw [hevent]; rfl, rfl⟩ (hold.id.symm.trans hid)
    rw [heq] at hlt
    exact UInt64.lt_irrefl _ hlt
  obtain ⟨⟨s, input, t⟩, nowMs, change⟩ := turn
  cases hmove with
  | @installed installing result _ timerId hdispatched hlocal _ _ _ _ hopen _ hstatus _ =>
    have hposition : s.eventPosition = asking.before.eventPosition := by
      simpa [Turn.installs, hlocal] using hinstalls
    obtain rfl := hend.unique asking hasking _ hturn (by rw [hevent]; rfl) rfl hposition.symm
    cases hevent
    obtain ⟨old, hold, hlt⟩ := hcreated.asked_before hsplit (.inl hc)
    have hexecution : s.executionId = db.state.executionId := hstate.executionId_eq
    have hid := hnew hold hlt
    rw [← hexecution] at hid
    show (∃ d ∈ t.callout, d.id = c.id) ↔ t.status = .active ∧ _
    rw [hopen, ← hdispatched.requested, hstatus]
    exact keeps_id_iff hc hinput hid
  | staged _ hagreed =>
    simp [Turn.installs, hagreed] at hinstalls
  | @certified proposal signed certificate hproposal hsigned hcertifies =>
    have hposition : proposal.eventPosition = asking.before.eventPosition := by
      rw [hsigned] at hinstalls
      exact Option.some.inj hinstalls
    obtain ⟨staging, hstaging, stagedEvent, hstagedEvent, hstagedAt, hcallout, hexecution, hnext⟩ :=
      hstate.stagedBy proposal hproposal
    obtain rfl := hend.unique asking hasking staging (hbefore hstaging) (by rw [hevent]; rfl)
      (by rw [hstagedEvent]; rfl) (hposition.symm.trans hstagedAt.symm)
    obtain rfl := Option.some.inj (hevent.symm.trans hstagedEvent)
    obtain ⟨old, hold, hlt⟩ := hstate.unopened proposal hproposal c (.inl hc)
    have hid := hnew hold (hposition ▸ hlt)
    rw [← hexecution] at hid
    obtain ⟨hopen, -, hstatus, -⟩ := hcertifies.installs
    rw [hopen, hstatus, hsigned]
    show (∃ d ∈ proposal.callout, d.id = c.id) ↔ proposal.status = .active ∧ _
    rw [hnext]
    exact keeps_id_iff (hcallout.trans hc) hinput hid
  | kept hchange => rcases hchange with rfl | ⟨artifact, rfl⟩ <;> cases hinstalls
  | _ => cases hinstalls

end

end Host

/-- Callout identities are never reused in a run of one execution, as long as the identity hash
does not collide on the positions of its events. -/
theorem callout_ids_never_reused {keys : HostKeys} {db : Db κ} (hcreated : Host.Created keys db)
    (inputs : List (UInt64 × Input))
    (hfree : Set.InjOn (calloutId κ db.state.executionId)
      (eventPositions ((Host.initial db).turns keys inputs))) :
    CalloutsFresh db.state.executionId ((Host.initial db).turns keys inputs) := by
  obtain ⟨hend, htracked⟩ := hcreated.callouts_tracked inputs
  have hlater : ∀ {before turn later},
      (Host.initial db).turns keys inputs = before ++ turn :: later →
      before ⊆ (Host.initial db).turns keys inputs := by
    intro before turn later hsplit
    rw [hsplit]
    exact List.subset_append_left _ _
  -- what is open before an answer and what is open from it on
  have hsides : ∀ {before turn later c d},
      (Host.initial db).turns keys inputs = before ++ turn :: later →
      turn.answered.isSome = true →
      (c ∈ turn.before.callout ∨ ∃ a ∈ before, c ∈ a.next.callout) →
      ((∃ b ∈ turn :: later, d ∈ b.next.callout) ∨ ∃ b ∈ later, d ∈ b.before.callout) →
      c.id ≠ d.id := by
    intro before turn later c d hsplit hanswered hc hd
    obtain ⟨a, ha, hlt⟩ := hcreated.asked_before hsplit hc
    obtain ⟨b, hb, hle⟩ := hcreated.asked_after hsplit hanswered hd
    refine Host.ids_ne_of_positions_ne hfree (hlater hsplit) (List.Subset.refl _) ha hb ?_
    exact fun heq => UInt64.lt_irrefl _ (UInt64.lt_of_lt_of_le hlt (heq ▸ hle))
  refine ⟨?_, ?_, ?_, ?_, ?_, ?_⟩
  · intro before turn later hsplit id hanswered
    have hsome : turn.answered.isSome = true := by rw [hanswered]; rfl
    obtain ⟨⟨rows, hmove⟩, -⟩ := htracked before turn later hsplit
    obtain ⟨c, hc, rfl⟩ := hmove.answers_open hanswered
    refine ⟨⟨c, hc, rfl⟩, fun after hafter d hd => ?_, fun after hafter hagain => ?_⟩
    · exact (hsides hsplit hsome (.inl hc) (.inl ⟨after, hafter, hd⟩)).symm
    · obtain ⟨front, back, rfl⟩ := List.append_of_mem hafter
      have hsplit' : (Host.initial db).turns keys inputs =
          (before ++ turn :: front) ++ after :: back := by simp [hsplit]
      obtain ⟨⟨rows', hmove'⟩, -⟩ := htracked _ after back hsplit'
      obtain ⟨d, hd, hid⟩ := hmove'.answers_open hagain
      exact hsides hsplit hsome (.inl hc) (.inr ⟨after, hafter, hd⟩) hid.symm
  · intro asking hasking event hevent hinput turn hturn hinstalls c hc
    exact hcreated.keeps_id hfree hasking hevent hinput hturn hinstalls hc
  · intro a ha b hb c hc d hd hdiffer
    obtain ⟨x, hx⟩ := hend.past a ha c hc
    obtain ⟨y, hy⟩ := hend.past b hb d hd
    refine Host.ids_ne_of_positions_ne hfree (List.Subset.refl _) (List.Subset.refl _) hx hy ?_
    intro heq
    obtain rfl := hend.unique x hx.mem y hy.mem hx.event hy.event heq
    have hsame := Option.some.inj (hx.request.symm.trans hy.request)
    exact hdiffer ⟨congrArg CalloutRequest.calloutIndex hsame, congrArg CalloutRequest.context hsame⟩
  · intro before turn later hsplit hanswered a ha b hb c hc d hd
    exact hsides hsplit hanswered (.inr ⟨a, ha, hc⟩) (.inl ⟨b, hb, hd⟩)
  · intro turn hturn
    obtain ⟨before, later, hsplit⟩ := List.append_of_mem hturn
    exact (htracked before turn later hsplit).2.2.inactive
  · intro before turn later hsplit hdiscards
    have hconcluded : ∀ after ∈ turn :: later, after.next.callout = none := by
      intro after hafter
      obtain ⟨front, back, hback⟩ := List.append_of_mem hafter
      have hsplit' : (Host.initial db).turns keys inputs = (before ++ front) ++ after :: back := by
        rw [hsplit, hback, List.append_assoc]
      obtain ⟨-, -, hstate⟩ := htracked _ after back hsplit'
      have hmem : turn ∈ before ++ front ++ [after] := by
        have hturn : turn ∈ front ++ [after] := by
          cases front with
          | nil => simp [(List.cons.inj hback).1]
          | cons first front => simp [(List.cons.inj hback).1]
        rw [List.append_assoc]
        exact List.mem_append_right _ hturn
      refine hstate.inactive fun hactive => ?_
      have hterminal := hstate.discarded ⟨turn, hmem, hdiscards⟩
      rw [hactive] at hterminal
      cases hterminal
    refine ⟨hconcluded, fun proposal hproposal other hother c hc hid => ?_⟩
    obtain ⟨-, hstate, -⟩ := htracked before turn later hsplit
    -- only turns before the discard have a callout
    have hearlier : other ∈ before := by
      rw [hsplit] at hother
      rcases List.mem_append.1 hother with hother | hother
      · exact hother
      · rw [hconcluded other hother] at hc
        cases hc
    obtain ⟨asking, hasked, hlt⟩ := hstate.unopened proposal hproposal c (.inr ⟨other, hearlier, hc⟩)
    obtain ⟨staging, hstaging, event, hevent, hposition, -⟩ := hstate.stagedBy proposal hproposal
    have heq := hfree ⟨asking, hlater hsplit hasked.mem, hasked.event, rfl⟩
      ⟨staging, hlater hsplit hstaging, by rw [hevent]; rfl, hposition⟩ (hasked.id.symm.trans hid)
    rw [heq] at hlt
    exact UInt64.lt_irrefl _ hlt

namespace Sample

def questioning : GuestReply :=
  .accepted (some shared) (some localState) [] (some ⟨0, [1]⟩) (.error "no outcome")

/-- The first participant asks at the session start and again when it is answered. -/
def questions : List (UInt64 × Input) :=
  [(0, .activate), (0, .start questioning), (0, .sign),
    (0, .receive (peer 2) (.stepSignature startCommitment (referenceBytes 48 1138100667352102205))
      questioning),
    (0, .submit 793648593815272074 [7] questioning)]

end Sample

theorem callout_ids_never_reused_questions :
    ((Host.initial (Sample.db 1)).turns (Sample.keys 1) Sample.questions).map
        (fun turn => (turn.answered, turn.next.callout.map OpenCallout.id)) =
      [(none, none), (none, none), (none, none), (none, some 793648593815272074),
        (some 793648593815272074, some 867699753346793867)] ∧
    CalloutsFresh (Sample.db 1).state.executionId
      ((Host.initial (Sample.db 1)).turns (Sample.keys 1) Sample.questions) := by
  refine ⟨by decide +kernel, callout_ids_never_reused Sample.created_one Sample.questions ?_⟩
  -- the two events are at positions 0 and 1
  have hpositions : ((Host.initial (Sample.db 1)).turns (Sample.keys 1) Sample.questions).all
      (fun turn => !turn.event.isSome || turn.before.eventPosition == 0 ||
        turn.before.eventPosition == 1) = true := by decide +kernel
  have hne : calloutId referencePrimitives (Sample.db 1).state.executionId 0 ≠
      calloutId referencePrimitives (Sample.db 1).state.executionId 1 := by decide +kernel
  have hcases : ∀ p ∈ eventPositions
      ((Host.initial (Sample.db 1)).turns (Sample.keys 1) Sample.questions), p = 0 ∨ p = 1 := by
    rintro p ⟨turn, hturn, hevent, rfl⟩
    simpa [hevent] using List.all_eq_true.1 hpositions turn hturn
  intro p hp q hq hid
  rcases hcases p hp with rfl | rfl <;> rcases hcases q hq with rfl | rfl
  · rfl
  · exact absurd hid hne
  · exact absurd hid.symm hne
  · rfl

end Arena0
