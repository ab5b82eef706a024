import Arena0.ReferenceHost

/-!
# Local behaviour and agreement

The steps a participant stages are computed from the binding and from what the guest
made of the agreed events: its shared payload and its lifecycle effect.  A machine on
these alone builds the same steps, so participants that process the same agreed
events build the same entries, whatever else they do.
-/

namespace Arena0

open Borsh Fallible Actor ExecutionState

variable {κ : Primitives}

/-! ## The shared machine -/

/-- What the guest made of one agreed event, as far as agreement sees it. -/
structure AgreedDispatch where
  event : StepEvent
  sharedState : SharedStateBytes
  lifecycle : Option Effect
  deriving DecidableEq

/-- The agreed coordinate with the size of the certified trace. -/
structure SharedCursor where
  cursor : StepCursor
  traceBytes : ℕ
  deriving DecidableEq

/-- A step as it is staged: its entry and commitment, and the coordinate it extends. -/
structure SharedStep where
  start : SharedCursor
  entry : TraceEntry
  commitment : StepCommitment
  deriving DecidableEq

namespace SharedCursor

def genesis (binding : ExecutionBinding κ) : SharedCursor := ⟨genesisCursor binding, 0⟩

variable (binding : ExecutionBinding κ)

def entry (κ : Primitives) (c : SharedCursor) (d : AgreedDispatch) : TraceEntry where
  traceVersion := traceFormatVersion
  step := c.cursor.nextStep
  event := d.event
  preState := c.cursor.stateHash
  postState := .ofShared κ d.sharedState
  terminal := d.lifecycle.bind StepTerminal.fromEffect
  agreement := .empty

def step (c : SharedCursor) (d : AgreedDispatch) : SharedStep :=
  ⟨c, c.entry κ d, .forEntry κ binding.sessionId (c.entry κ d) c.cursor.chainHash⟩

def next (c : SharedCursor) (d : AgreedDispatch) : SharedCursor where
  cursor := ⟨c.cursor.nextStep + 1, .ofShared κ d.sharedState,
    (c.step binding d).commitment.linkHash κ⟩
  traceBytes := c.traceBytes + (certifiedLength binding (c.entry κ d)).toOption.getD 0

/-- The steps of a sequence of agreed events, each after the ones before it were certified. -/
def steps (c : SharedCursor) : List AgreedDispatch → List SharedStep
  | [] => []
  | d :: ds => c.step binding d :: (c.next binding d).steps ds

private theorem steps_append_singleton (c : SharedCursor) (ds : List AgreedDispatch)
    (d : AgreedDispatch) : c.steps binding (ds ++ [d]) =
      c.steps binding ds ++ [(ds.foldl (next binding) c).step binding d] := by
  induction ds generalizing c with
  | nil => rfl
  | cons d' ds ih => simp [steps, ih]

private theorem take_steps (c : SharedCursor) (ds : List AgreedDispatch) (k : ℕ) :
    (c.steps binding ds).take k = c.steps binding (ds.take k) := by
  induction ds generalizing c k with
  | nil => simp [steps]
  | cons d ds ih =>
    cases k with
    | zero => rfl
    | succ k => simp [steps, ih]

end SharedCursor

def ExecutionState.sharedCursor (s : ExecutionState κ) : SharedCursor := ⟨s.stepCursor, s.traceBytes⟩

/-! ## What a host processes and builds -/

/-- The agreed event an input dispatches, with the reply of the guest. -/
def Input.agreedEvent (s : ExecutionState κ) : Input → Option (Event × GuestReply)
  | .start reply => s.binding.ensemble.toOption.map fun ensemble => (.sessionStarted ensemble, reply)
  | .author reply => some (.messageReceived s.producer (s.outgoing.headD []), reply)
  | .receive source (.message _ data) reply => some (.messageReceived source data, reply)
  | _ => none

def Input.isLocal : Input → Bool
  | .timer .. | .submit .. | .receive _ (.direct ..) _ => true
  | _ => false

/-- What the guest's reply to an agreed event says to the shared machine. -/
def GuestReply.agreedDispatch (event : Event) : GuestReply → Option AgreedDispatch
  | .accepted (some shared) _ effects _ _ =>
    (StepEvent.ofEvent event).map fun event => ⟨event, shared, effects.find? Effect.isLifecycle⟩
  | _ => none

def Record.stages (r : Record κ) : Bool := r.before.proposal.isNone && r.next.proposal.isSome

/-- The transition keeps the agreed step, state and link, the size of the trace and the hash of
the shared payload. -/
def Record.KeepsAgreement (r : Record κ) : Prop :=
  r.next.sharedCursor = r.before.sharedCursor ∧
    StateHash.ofShared κ r.next.sharedState = StateHash.ofShared κ r.before.sharedState

def Record.agreedDispatch (r : Record κ) : Option AgreedDispatch :=
  if r.stages then
    (r.input.agreedEvent r.before).bind fun (event, reply) => reply.agreedDispatch event
  else none

def Record.sharedStep (r : Record κ) : Option SharedStep :=
  if r.stages then
    r.next.proposal.map fun proposal =>
      ⟨r.before.sharedCursor, proposal.entry, r.before.commitmentFor proposal⟩
  else none

def Host.agreedDispatches (h : Host κ) : List AgreedDispatch :=
  h.journal.reverse.filterMap Record.agreedDispatch

def Host.sharedSteps (h : Host κ) : List SharedStep := h.journal.reverse.filterMap Record.sharedStep

/-! ## One transition -/

theorem singleLifecycleEffect_eq_find? {effects : List Effect} {lifecycle : Option Effect}
    (h : singleLifecycleEffect effects = .ok lifecycle) :
    lifecycle = effects.find? Effect.isLifecycle := by
  rw [← List.head?_filter]
  unfold singleLifecycleEffect at h
  split at h
  · rename_i hnil
    rw [hnil]
    exact (Except.ok.inj h).symm
  · rename_i effect hone
    rw [hone]
    exact (Except.ok.inj h).symm
  · cases h

variable {s t : ExecutionState κ}

theorem applyDispatch_entry {event : Event} {result : DispatchResult κ} {pendingId : Option UInt64}
    {frame : Option ExecFrame} (hagreed : event.isAgreed = true)
    (h : s.applyDispatch event result pendingId = .ok (t, frame)) :
    ∃ stepEvent proposal, StepEvent.ofEvent event = some stepEvent ∧ s.proposal = none ∧
      t.proposal = some proposal ∧
      proposal.entry = s.sharedCursor.entry κ
        ⟨stepEvent, result.sharedState, result.effects.find? Effect.isLifecycle⟩ ∧
      proposal.sharedState = result.sharedState ∧
      ∃ commitment, ExecutionStatus.fromProposalEntry proposal.entry commitment
        result.terminalOutcome = .ok proposal.status := by
  simp only [applyDispatch, bind_eq_ok, ensure_eq_ok, hagreed, ↓reduceIte] at h
  obtain ⟨_, hnone, indexed, hindexed, lifecycle, hlifecycle, _, -, _, -, _, -, _, -, h⟩ := h
  obtain rfl := singleLifecycleEffect_eq_find? hlifecycle
  simp only [applyAgreed, SharedProposal.new, bind_eq_ok, okOr_eq_ok, pure_eq_ok,
    Prod.mk.injEq] at h
  obtain ⟨rest, -, stepEvent, hevent, outgoing, -, status, hstatus, proposal,
    ⟨_, -, _, -, _, -, rfl⟩, next, hstage, rfl, -⟩ := h
  obtain ⟨-, -, -, -, position, version, -, -, rfl⟩ := stageProposal_eq_ok hstage
  exact ⟨stepEvent, _, hevent, hnone, rfl, rfl, rfl, _, hstatus⟩

variable {input : Input} {change : Change κ} {answer : Option ExecDeliveryRejection}
  {nowMs : UInt64}

theorem Committed.dispatches_of_stages {keys : HostKeys} {db : Db κ}
    (h : Committed keys db s input t change) (hstages : (⟨s, input, t⟩ : Record κ).stages = true) :
    input.dispatches = true ∨
      ∃ source commitment data reply, input = .receive source (.message commitment data) reply := by
  obtain ⟨hnone, hsome⟩ : s.proposal = none ∧ t.proposal.isSome = true := by
    simpa [Record.stages] using hstages
  -- every other transition keeps or drops the proposal, or needs one
  have hsame : t.proposal ≠ s.proposal := by
    intro hsame
    simp [hsame, hnone] at hsome
  cases h with
  | dispatch hinput _ => exact .inl hinput
  | message _ _ => exact .inr ⟨_, _, _, _, rfl⟩
  | activate h =>
    obtain ⟨-, -, v, -, rfl⟩ := activate_eq_ok h
    exact absurd rfl hsame
  | @direct _ next _ _ _ _ _ _ _ _ _ hlocal h hrecord =>
    obtain ⟨-, -, -, v, -, rfl⟩ := recordDirect_eq_ok hrecord
    obtain ⟨-, ⟨-, -, lifecycle, h⟩ | ⟨hagreed, -⟩⟩ := applyDispatch_eq_ok h
    · obtain ⟨-, -, -, _, _, _, _, -, -, -, -, -, rfl⟩ := applyLocal_eq_ok h
      exact absurd rfl hsame
    · rw [hlocal] at hagreed
      cases hagreed
  | discard _ h =>
    obtain ⟨-, -, -, v, -, rfl⟩ := recordDirect_eq_ok h
    exact absurd rfl hsame
  | drop h =>
    obtain ⟨-, v, -, rfl⟩ := dropOutgoingHead_eq_ok h
    exact absurd rfl hsame
  | sign hproposal _ =>
    rw [hnone] at hproposal
    cases hproposal
  | signature hproposal _ =>
    rw [proposalCommitment, hnone] at hproposal
    cases hproposal
  | certificate h =>
    obtain ⟨proposal, hproposal, -⟩ := Certifies.exists_of_certifyStep h
    rw [hnone] at hproposal
    cases hproposal
  | stop _ h | abort h =>
    obtain ⟨-, -, -, -, -, -, v, -, rfl⟩ := stop_eq_ok h
    simp [stoppedBy, beginEnd] at hsome
  | publish _ h =>
    obtain ⟨-, status, v, -, -, rfl⟩ := publishReceipt_eq_ok h
    exact absurd rfl hsame
  | ack _ h =>
    obtain ⟨-, -, v, -, rfl⟩ := ackDirect_eq_ok h
    exact absurd rfl hsame
  | evidence _ _ _ h | confirmed _ h =>
    obtain ⟨_, v, phase, -, -, -, rfl, -⟩ := confirmEnd_eq_ok h
    exact absurd rfl hsame
  | expire h =>
    obtain ⟨_, v, -, -, rfl⟩ := expireEnd_eq_ok h
    exact absurd rfl hsame

theorem applyDispatch_local {event : Event} {result : DispatchResult κ} {pendingId : Option UInt64}
    {frame : Option ExecFrame} (hlocal : event.isAgreed = false)
    (h : s.applyDispatch event result pendingId = .ok (t, frame)) :
    s.proposal = none ∧ t.proposal = none ∧ t.sharedCursor = s.sharedCursor ∧
      StateHash.ofShared κ t.sharedState = s.agreedState := by
  obtain ⟨-, ⟨-, -, lifecycle, h⟩ | ⟨hagreed, -⟩⟩ := applyDispatch_eq_ok h
  · obtain ⟨hnone, -, hpost, _, _, _, _, -, -, -, -, -, rfl⟩ := applyLocal_eq_ok h
    exact ⟨hnone, hnone, rfl, hpost⟩
  · rw [hlocal] at hagreed
    cases hagreed

theorem handle_dispatches_agreed {keys : HostKeys} {db : Db κ}
    (h : Actor.handle keys db s nowMs input = .commit t change answer)
    (hstages : (⟨s, input, t⟩ : Record κ).stages = true) :
    ∃ event reply result frame, input.agreedEvent s = some (event, reply) ∧
      event.isAgreed = true ∧ Yields reply result ∧
      s.applyDispatch event result none = .ok (t, frame) := by
  -- a dispatch of a local event stages nothing
  have hlocal : ∀ {event result pendingId frame}, event.isAgreed = false →
      s.applyDispatch event result pendingId = .ok (t, frame) → False := by
    intro event result pendingId frame hlocal happly
    obtain ⟨-, hnone, -⟩ := applyDispatch_local hlocal happly
    simp [Record.stages, hnone] at hstages
  rcases (handle_commit h).dispatches_of_stages hstages with
    hinput | ⟨source, commitment, data, reply, rfl⟩
  · cases input with
    | start reply =>
      obtain ⟨_, h⟩ := map_eq_commit h
      obtain ⟨ensemble, result, frame, hensemble, happly, -, hyields⟩ :=
        ensureSessionStarted_commit h
      refine ⟨_, reply, result, frame, ?_, rfl, hyields, happly⟩
      simp [Input.agreedEvent, hensemble, Except.toOption]
    | author reply =>
      obtain ⟨_, h⟩ := map_eq_commit h
      rcases authorNextMessage_commit h with ⟨-, -, hdrop, -⟩ | ⟨result, frame, happly, -, hyields⟩
      · obtain ⟨hnone, v, -, rfl⟩ := dropOutgoingHead_eq_ok hdrop
        simp [Record.stages, hnone] at hstages
      · exact ⟨_, reply, result, frame, rfl, rfl, hyields, happly⟩
    | timer timerId reply =>
      simp only [Actor.handle] at h
      split at h
      · obtain ⟨_, h⟩ := map_eq_commit h
        obtain ⟨timer, result, frame, -, happly, -⟩ := fireTimer_commit h
        exact (hlocal rfl happly).elim
      · cases h
    | submit pendingId data reply =>
      obtain ⟨_, h⟩ := map_eq_commit h
      obtain ⟨calloutIndex, result, frame, happly, -⟩ := submitInput_commit h
      exact (hlocal rfl happly).elim
    | _ => cases hinput
  · simp only [Actor.handle, acceptFrame] at h
    split at h
    · cases h
    split at h
    · rename_i hterminal
      unfold acceptTerminal at h
      split at h
      · obtain ⟨_, h⟩ := map_eq_commit h
        obtain ⟨_, v, phase, -, -, -, rfl, -⟩ := confirmEnd_eq_ok (confirmPeer_commit h).2
        cases hproposal : s.proposal <;> simp [Record.stages, hproposal] at hstages
      all_goals cases h
    · obtain ⟨result, frame, happly, -, -, hyields⟩ := acceptMessage_dispatches h
      exact ⟨_, reply, result, frame, rfl, rfl, hyields, happly⟩

private theorem handle_stages {keys : HostKeys} {db : Db κ}
    (h : Actor.handle keys db s nowMs input = .commit t change answer)
    (hstages : (⟨s, input, t⟩ : Record κ).stages = true) :
    ∃ d, (⟨s, input, t⟩ : Record κ).agreedDispatch = some d ∧
      (⟨s, input, t⟩ : Record κ).sharedStep = some (s.sharedCursor.step s.binding d) := by
  obtain ⟨event, reply, result, frame, hevent, hagreed, hyields, happly⟩ :=
    handle_dispatches_agreed h hstages
  obtain ⟨stepEvent, proposal, hstep, -, hproposal, hentry, -⟩ := applyDispatch_entry hagreed happly
  obtain ⟨projection, rfl, -⟩ := hyields
  refine ⟨⟨stepEvent, result.sharedState, result.effects.find? Effect.isLifecycle⟩, ?_, ?_⟩
  · simp [Record.agreedDispatch, hstages, hevent, GuestReply.agreedDispatch, hstep]
  · simp only [Record.sharedStep, hstages, ↓reduceIte, hproposal, Option.map_some,
      SharedCursor.step, commitmentFor, hentry]
    rfl

/-! ## Whole runs -/

/-- The durable aggregate follows the shared machine. -/
structure Host.Mirrors (h : Host κ) (certified : ℕ) : Prop where
  steps : h.sharedSteps = (SharedCursor.genesis h.db.state.binding).steps h.db.state.binding
    h.agreedDispatches
  cursor : h.db.state.sharedCursor = (h.agreedDispatches.take certified).foldl
    (SharedCursor.next h.db.state.binding) (.genesis h.db.state.binding)
  step_eq : h.db.state.agreedStep.toNat = certified
  idle : h.db.state.status.isTerminal = false → h.db.state.proposal = none →
    h.agreedDispatches.length = certified
  pending : ∀ proposal, h.db.state.proposal = some proposal →
    h.agreedDispatches.length = certified + 1 ∧
    ∃ d ∈ h.agreedDispatches.getLast?, proposal.entry = h.db.state.sharedCursor.entry κ d

namespace Host

section

variable {h : Host κ} {input : Input} {next : ExecutionState κ} {db : Db κ}

theorem agreedDispatches_record : (h.record input next db).agreedDispatches =
    h.agreedDispatches ++ (Record.agreedDispatch ⟨h.db.state, input, next⟩).toList := by
  simp only [agreedDispatches, record, List.reverse_cons, List.filterMap_append]
  cases hd : Record.agreedDispatch ⟨h.db.state, input, next⟩ <;> simp [hd]

theorem sharedSteps_record : (h.record input next db).sharedSteps =
    h.sharedSteps ++ (Record.sharedStep ⟨h.db.state, input, next⟩).toList := by
  simp only [sharedSteps, record, List.reverse_cons, List.filterMap_append]
  cases hd : Record.sharedStep ⟨h.db.state, input, next⟩ <;> simp [hd]

end

theorem sharedCursor_certifies {s t : ExecutionState κ} {proposal : SharedProposal κ}
    {certificate : StepCertificate} {d : AgreedDispatch}
    (hc : Certifies s t proposal certificate) (hentry : proposal.entry = s.sharedCursor.entry κ d) :
    t.sharedCursor = s.sharedCursor.next s.binding d ∧
      t.agreedStep.toNat = s.agreedStep.toNat + 1 ∧ t.proposal = none := by
  obtain ⟨next, traceBytes, version, hadvance, hbudget, -, rfl⟩ := hc.next
  obtain ⟨hstep, -, -, -, hpost, hlink⟩ := StepCursor.advance_eq_ok.1 hadvance
  obtain ⟨bytes, hbytes, rfl, -⟩ := checkReceiptBudget_eq_ok hbudget
  have hcommitment : certificate.commitment = (s.sharedCursor.step s.binding d).commitment := by
    rw [hc.commitment, commitmentFor, hentry]
    rfl
  have hnat := checkedAdd_eq_some hstep
  have hnext : next.nextStep = s.agreedStep + 1 := by
    apply UInt64.toNat_inj.1
    rw [UInt64.toNat_add, Nat.mod_eq_of_lt]
    · exact hnat
    · rw [← show next.nextStep.toNat = s.agreedStep.toNat + (1 : UInt64).toNat from hnat]
      exact next.nextStep.toNat_lt
  rw [hcommitment] at hpost hlink
  rw [hentry] at hbytes
  refine ⟨?_, hnat, rfl⟩
  have hcursor : next = (s.sharedCursor.next s.binding d).cursor := by
    cases next
    simp only at hnext hpost hlink
    subst hnext hpost hlink
    rfl
  show (⟨next, s.traceBytes + bytes⟩ : SharedCursor) = _
  rw [hcursor, SharedCursor.next, hbytes]
  rfl

variable {h : Host κ} {n : ℕ} {input : Input} {next : ExecutionState κ}

/-- A transition that stages nothing adds nothing to what the host processed and built. -/
private theorem Mirrors.of_not_stages {n' : ℕ} {db : Db κ} (hm : h.Mirrors n)
    (hstate : db.state = next) (hbinding : next.binding = h.db.state.binding)
    (hstages : (⟨h.db.state, input, next⟩ : Record κ).stages = false)
    (hcursor : next.sharedCursor = (h.agreedDispatches.take n').foldl
      (SharedCursor.next h.db.state.binding) (.genesis h.db.state.binding))
    (hstep : next.agreedStep.toNat = n')
    (hidle : next.status.isTerminal = false → next.proposal = none →
      h.agreedDispatches.length = n')
    (hpending : ∀ proposal, next.proposal = some proposal →
      h.agreedDispatches.length = n' + 1 ∧
      ∃ d ∈ h.agreedDispatches.getLast?, proposal.entry = next.sharedCursor.entry κ d) :
    (h.record input next db).Mirrors n' := by
  have hagreed : (h.record input next db).agreedDispatches = h.agreedDispatches := by
    rw [agreedDispatches_record]
    simp [Record.agreedDispatch, hstages]
  have hsteps : (h.record input next db).sharedSteps = h.sharedSteps := by
    rw [sharedSteps_record]
    simp [Record.sharedStep, hstages]
  have hdb : (h.record input next db).db.state = next := hstate
  constructor
  · rw [hsteps, hagreed, hdb, hbinding]
    exact hm.steps
  · rw [hagreed, hdb, hbinding]
    exact hcursor
  · rw [hdb]
    exact hstep
  · rw [hagreed, hdb]
    exact hidle
  · rw [hagreed, hdb]
    exact hpending

private theorem Mirrors.certifies {db : Db κ} {proposal signed : SharedProposal κ}
    {certificate : StepCertificate} (hm : h.Mirrors n) (hstate : db.state = next)
    (hbinding : next.binding = h.db.state.binding) (hproposal : h.db.state.proposal = some proposal)
    (hentry : signed.entry = proposal.entry) (hc : Certifies h.db.state next signed certificate) :
    (h.record input next db).Mirrors (n + 1) := by
  obtain ⟨hlen, d, hlast, hd⟩ := hm.pending proposal hproposal
  obtain ⟨hcursor, hstep, hnone⟩ := sharedCursor_certifies hc (hentry.trans hd)
  have hsplit : h.agreedDispatches.take (n + 1) = h.agreedDispatches.take n ++ [d] := by
    have hconcat := List.dropLast_append_getLast? d hlast
    rw [List.dropLast_eq_take, hlen, Nat.add_sub_cancel] at hconcat
    rw [hconcat, List.take_of_length_le hlen.le]
  refine hm.of_not_stages hstate hbinding (by simp [Record.stages, hproposal]) ?_ ?_ ?_ ?_
  · rw [hsplit, List.foldl_append, ← hm.cursor]
    exact hcursor
  · rw [hstep, hm.step_eq]
  · exact fun _ _ => hlen
  · intro p hp
    rw [hnone] at hp
    cases hp

theorem Mirrors.stages {db : Db κ} {proposal : SharedProposal κ} {d : AgreedDispatch}
    (hm : h.Mirrors n) (hstate : db.state = next) (hbinding : next.binding = h.db.state.binding)
    (hrunning : h.db.state.status.isTerminal = false) (hnone : h.db.state.proposal = none)
    (hproposal : next.proposal = some proposal)
    (hcursor : next.sharedCursor = h.db.state.sharedCursor)
    (hagreed : (⟨h.db.state, input, next⟩ : Record κ).agreedDispatch = some d)
    (hstep : (⟨h.db.state, input, next⟩ : Record κ).sharedStep =
      some (h.db.state.sharedCursor.step h.db.state.binding d)) :
    (h.record input next db).Mirrors n := by
  have hlen := hm.idle hrunning hnone
  have hdispatches : (h.record input next db).agreedDispatches = h.agreedDispatches ++ [d] := by
    rw [agreedDispatches_record, hagreed]
    rfl
  have hsteps : (h.record input next db).sharedSteps =
      h.sharedSteps ++ [h.db.state.sharedCursor.step h.db.state.binding d] := by
    rw [sharedSteps_record, hstep]
    rfl
  have hentry : proposal.entry = h.db.state.sharedCursor.entry κ d := by
    simp only [Record.sharedStep, Record.stages, hnone, hproposal, Option.isNone_none,
      Option.isSome_some, Bool.and_self, ↓reduceIte, Option.map_some, Option.some.injEq] at hstep
    exact congrArg SharedStep.entry hstep
  have hdb : (h.record input next db).db.state = next := hstate
  constructor
  · rw [hsteps, hdispatches, hdb, hbinding, SharedCursor.steps_append_singleton, ← hm.steps,
      hm.cursor, List.take_of_length_le hlen.le]
  · rw [hdispatches, hdb, hbinding, hcursor, hm.cursor, List.take_append_of_le_length hlen.ge]
  · rw [hdb, ← hm.step_eq]
    exact congrArg (fun c : SharedCursor => c.cursor.nextStep.toNat) hcursor
  · rw [hdb, hproposal]
    intro _ hcontra
    cases hcontra
  · rw [hdb, hdispatches, hproposal, hcursor]
    intro p hp
    cases hp
    exact ⟨by simp [hlen], d, by simp, hentry⟩

private theorem Mirrors.keeps {db : Db κ} (hm : h.Mirrors n) (hstate : db.state = next)
    (hbinding : next.binding = h.db.state.binding)
    (hcursor : next.sharedCursor = h.db.state.sharedCursor)
    (hproposal : ∀ proposal, next.proposal = some proposal →
      ∃ before, h.db.state.proposal = some before ∧ proposal.entry = before.entry)
    (hidle : next.status.isTerminal = false → next.proposal = none →
      h.db.state.status.isTerminal = false ∧ h.db.state.proposal = none) :
    (h.record input next db).Mirrors n := by
  have hstages : (⟨h.db.state, input, next⟩ : Record κ).stages = false := by
    cases hp : next.proposal with
    | none => simp [Record.stages, hp]
    | some proposal =>
      obtain ⟨before, hbefore, -⟩ := hproposal proposal hp
      simp [Record.stages, hbefore]
  refine hm.of_not_stages hstate hbinding hstages ?_ ?_ ?_ ?_
  · rw [hcursor, hm.cursor]
  · rw [← hm.step_eq]
    exact congrArg (fun c : SharedCursor => c.cursor.nextStep.toNat) hcursor
  · intro hrunning hnone
    obtain ⟨hrunning, hnone⟩ := hidle hrunning hnone
    exact hm.idle hrunning hnone
  · intro proposal hp
    obtain ⟨before, hbefore, hentry⟩ := hproposal proposal hp
    rw [hentry, hcursor]
    exact hm.pending before hbefore

private theorem Mirrors.decision {keys : HostKeys} {change : Change κ}
    {db : Db κ} (hm : h.Mirrors n)
    (hstate : db.state = next)
    (hdecide : Actor.handle keys h.db h.db.state nowMs input = .commit next change answer) :
    ∃ n', (h.record input next db).Mirrors n' := by
  have hcommitted := handle_commit hdecide
  have hbinding := hcommitted.sameExecution.binding
  -- a stop drops the proposal and makes the execution terminal
  have hstopped : ∀ {occurrence}, h.db.state.stop occurrence = .ok next →
      (h.record input next db).Mirrors n := by
    intro occurrence hstop
    obtain ⟨-, -, -, -, -, -, v, -, rfl⟩ := stop_eq_ok hstop
    refine hm.keeps hstate rfl rfl ?_ ?_
    · intro proposal hproposal
      cases hproposal
    · intro hrunning
      cases hrunning
  cases hcommitted.progress with
  | quiet _ hcursor hbytes _ hproposal hstatus _ =>
    have hterminal : next.status.isTerminal = h.db.state.status.isTerminal := by
      rcases hstatus with hstatus | ⟨hbefore, hafter⟩
      · rw [← ExecutionStatus.isTerminal_unpublished next.status, hstatus,
          ExecutionStatus.isTerminal_unpublished]
      · rw [hbefore, hafter]
        rfl
    refine ⟨n, hm.keeps hstate hbinding ?_ ?_ ?_⟩
    · rw [sharedCursor, sharedCursor, hcursor, hbytes]
    · rw [hproposal]
      exact fun proposal hp => ⟨proposal, hp, rfl⟩
    · rw [hterminal, hproposal]
      exact fun hrunning hnone => ⟨hrunning, hnone⟩
  | @staged event result timerId proposal position version _ hnone hactive _ ht =>
    have hproposal : next.proposal = some proposal := by rw [ht]
    have hcursor : next.sharedCursor = h.db.state.sharedCursor := by
      rw [ht]
      rfl
    obtain ⟨d, hagreed, hstep⟩ := handle_stages hdecide (by simp [Record.stages, hnone, hproposal])
    have hrunning : h.db.state.status.isTerminal = false := by
      rw [hactive]
      rfl
    exact ⟨n, hm.stages hstate hbinding hrunning hnone hproposal hcursor hagreed hstep⟩
  | @signed proposal signed x version _ hproposal hadd ht =>
    obtain ⟨-, -, rfl⟩ := SharedProposal.addSignature_eq_ok hadd
    subst ht
    refine ⟨n, hm.keeps hstate rfl rfl ?_ ?_⟩
    · intro p hp
      cases hp
      exact ⟨proposal, hproposal, rfl⟩
    · intro _ hnone
      cases hnone
  | @completed proposal signed _ _ _ hproposal hadd _ hcertifies =>
    obtain ⟨-, -, hsigned⟩ := SharedProposal.addSignature_eq_ok hadd
    have hentry : signed.entry = proposal.entry := by rw [hsigned]
    exact ⟨n + 1, hm.certifies hstate hbinding hproposal hentry hcertifies⟩
  | certified _ hproposal hcertifies =>
    exact ⟨n + 1, hm.certifies hstate hbinding hproposal rfl hcertifies⟩
  | stopped _ _ hstop => exact ⟨n, hstopped hstop⟩
  | aborted _ hstop => exact ⟨n, hstopped hstop⟩

theorem Created.mirrors {keys : HostKeys} {db : Db κ} (hc : Created keys db) :
    (initial db).Mirrors 0 := by
  obtain ⟨hnone, hactivating, hzero, -⟩ := hc.fresh
  have hs : db.state.Recoverable := hc.sound.recoverable
  refine ⟨rfl, ?_, ?_, fun _ _ => rfl, ?_⟩
  · show (⟨db.state.stepCursor, db.state.traceBytes⟩ : SharedCursor) = _
    rw [hs.genesis hzero, hs.trace_zero.1 hzero]
    rfl
  · show db.state.agreedStep.toNat = 0
    rw [hzero]
    rfl
  · intro proposal hproposal
    rw [show (initial db).db.state.proposal = none from hnone] at hproposal
    cases hproposal

/-- Every run of a host follows the shared machine. -/
theorem Reachable.mirrors {keys : HostKeys} (hr : h.Reachable keys) : ∃ n, h.Mirrors n := by
  apply hr.induction (P := fun h => ∃ n, h.Mirrors n)
  · rintro h live ⟨n, hm⟩
    exact ⟨n, hm.steps, hm.cursor, hm.step_eq, hm.idle, hm.pending⟩
  · rintro h nowMs input next change answer db - ⟨n, hm⟩ hdecide hwritten
    exact hm.decision hwritten.state hdecide
  · exact fun db hcreated => ⟨0, hcreated.mirrors⟩

end Host

private theorem handle_local {keys : HostKeys} {db : Db κ}
    (hs : s.Recoverable) (hlocal : input.isLocal = true)
    (h : Actor.handle keys db s nowMs input = .commit t change answer) :
    t.sharedCursor = s.sharedCursor ∧
      StateHash.ofShared κ t.sharedState = StateHash.ofShared κ s.sharedState := by
  rw [hs.shared_hash]
  cases input with
  | timer timerId reply =>
    simp only [Actor.handle] at h
    split at h
    · obtain ⟨_, h⟩ := map_eq_commit h
      obtain ⟨timer, result, frame, -, happly, -⟩ := fireTimer_commit h
      exact (applyDispatch_local rfl happly).2.2
    · cases h
  | submit pendingId data reply =>
    obtain ⟨_, h⟩ := map_eq_commit h
    obtain ⟨calloutIndex, result, frame, happly, -⟩ := submitInput_commit h
    exact (applyDispatch_local rfl happly).2.2
  | receive source frame reply =>
    cases frame with
    | direct seq msg attachment =>
      cases handle_commit h with
      | dispatch hinput _ => cases hinput
      | direct _ hevent happly hrecord =>
        obtain ⟨-, -, hcursor, hhash⟩ := applyDispatch_local hevent happly
        obtain ⟨-, -, -, v, -, rfl⟩ := recordDirect_eq_ok hrecord
        exact ⟨hcursor, hhash⟩
      | discard _ hrecord =>
        obtain ⟨-, -, -, v, -, rfl⟩ := recordDirect_eq_ok hrecord
        exact ⟨rfl, hs.shared_hash⟩
      | evidence _ _ _ hconfirm =>
        obtain ⟨_, v, phase, -, -, -, rfl, -⟩ := confirmEnd_eq_ok hconfirm
        exact ⟨rfl, hs.shared_hash⟩
    | _ => cases hlocal
  | _ => cases hlocal

/-- No local event in the history of a host changed the agreement. -/
theorem Host.Reachable.local_records {keys : HostKeys} {h : Host κ} (hr : h.Reachable keys) :
    ∀ r ∈ h.journal, r.input.isLocal = true → r.KeepsAgreement := by
  refine hr.induction (P := fun h => ∀ r ∈ h.journal, r.input.isLocal = true → r.KeepsAgreement)
    ?_ ?_ ?_
  · exact fun h live hp => hp
  · intro h nowMs input next change answer db hs hp hdecide hwritten r hmem hlocal
    rcases List.mem_cons.1 hmem with rfl | hmem
    · exact handle_local hs.recoverable hlocal hdecide
    · exact hp r hmem hlocal
  · intro db _ r hr
    cases hr

/-- Two participants of one activation that accept the same agreed events, with the same shared
payloads and lifecycle effects, build the same entries and commitments at the same coordinates,
whatever else they do; and no local event changes the coordinate or the hash of the payload. -/
theorem local_behaviour_never_leaks {keys₁ keys₂ : HostKeys} {h₁ h₂ : Host κ}
    (hr₁ : h₁.Reachable keys₁) (hr₂ : h₂.Reachable keys₂)
    (hbinding : h₁.db.state.binding = h₂.db.state.binding) {k : ℕ}
    (hsame : h₁.agreedDispatches.take k = h₂.agreedDispatches.take k) :
    h₁.sharedSteps.take k = h₂.sharedSteps.take k ∧
    (h₁.db.state.agreedStep = h₂.db.state.agreedStep → h₁.db.state.agreedStep.toNat ≤ k →
      h₁.db.state.sharedCursor = h₂.db.state.sharedCursor) ∧
    ∀ r ∈ h₁.journal ++ h₂.journal, r.input.isLocal = true → r.KeepsAgreement := by
  obtain ⟨n₁, hm₁⟩ := hr₁.mirrors
  obtain ⟨n₂, hm₂⟩ := hr₂.mirrors
  refine ⟨?_, ?_, ?_⟩
  · rw [hm₁.steps, hm₂.steps, SharedCursor.take_steps, SharedCursor.take_steps, hsame, hbinding]
  · intro hstep hle
    obtain rfl : n₁ = n₂ := by rw [← hm₁.step_eq, ← hm₂.step_eq, hstep]
    rw [hm₁.step_eq] at hle
    have htake := congrArg (List.take n₁) hsame
    rw [List.take_take, List.take_take, min_eq_left hle] at htake
    rw [hm₁.cursor, hm₂.cursor, htake, hbinding]
  · intro r hmem
    rcases List.mem_append.1 hmem with hmem | hmem
    · exact hr₁.local_records r hmem
    · exact hr₂.local_records r hmem

/-- The second participant takes a direct message, and authors the message that ends the session. -/
def Sample.authoringHost : Host referencePrimitives :=
  (Host.initial (db 2)).run (keys 2)
    [(0, .activate), (0, .receive (peer 1) (.direct 1 [7] none) (accepted [])),
      (0, .start (accepted [.broadcast [7]])), (0, .sign),
      (0, .receive (peer 1) (.stepSignature startCommitment (startSig 1).sig) (accepted [])),
      (0, .author (ending finalState))]

open Sample in
/-- The author and the receiver of a message stage the same entries with different local
behaviour. -/
theorem local_behaviour_never_leaks_message :
    endedHost.sharedSteps.length = 2 ∧
      endedHost.sharedSteps.take 2 = authoringHost.sharedSteps.take 2 := by
  have hr₁ : endedHost.Reachable (keys 1) := ⟨_, _, created_one, rfl⟩
  have hr₂ : authoringHost.Reachable (keys 2) := ⟨_, _, created_two, rfl⟩
  have hbinding : endedHost.db.state.binding = authoringHost.db.state.binding := by
    decide +kernel
  have hsame : endedHost.agreedDispatches.take 2 = authoringHost.agreedDispatches.take 2 := by
    decide +kernel
  exact ⟨by decide +kernel, (local_behaviour_never_leaks hr₁ hr₂ hbinding hsame).1⟩

end Arena0
