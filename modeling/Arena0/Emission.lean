import Arena0.Sandbox
import Arena0.ReferenceHost

/-!
# Emitted effects

The sandbox checks each effect when it is emitted, against the effects before it
and the queue lengths the actor passes; the protocol checks the finished list when
it applies the dispatch.  What the first lets through the second does not refuse on
account of an effect, except broadcasts of an agreed event that overflow the
outgoing queue.
-/

namespace Arena0

open Borsh Fallible

variable {κ : Primitives} {host' : HostState}

namespace Sandbox

/-! ## The effects emitted so far -/

structure Emitted (host : HostState) : Prop where
  budget : checkEffectBudget host.effectQueue = .ok ()
  lifecycle_agreed : host.dispatch = .local → host.effectQueue.countP Effect.isLifecycle = 0
  lifecycle_le : host.effectQueue.countP Effect.isLifecycle ≤ 1
  timers : host.effectQueue.countP Effect.isLifecycle = 0 ∨
    host.effectQueue.countP Effect.isSetTimer = 0
  direct_local : host.dispatch = .agreed → host.effectQueue.countP Effect.isSendDirect = 0
  broadcasts : host.dispatch = .local → host.effectQueue.countP Effect.isBroadcast = 0 ∨
    host.outgoingLen + host.effectQueue.countP Effect.isBroadcast ≤ maxOutgoingMessages
  recipients : ∀ recipient msg range, .sendDirect recipient msg range ∈ host.effectQueue →
    host.peerId ≠ some recipient ∧ ∃ session ∈ host.session, recipient ∈ session.peers
  lanes : ∀ peer, host.effectQueue.countP (isSendDirectTo peer) = 0 ∨
    host.queuedTo peer + host.effectQueue.countP (isSendDirectTo peer) ≤ maxDirectQueue

variable {host : HostState}

theorem emitted_nil (h : host.effectQueue = []) : Emitted host := by
  have hbudget : checkEffectBudget [] = .ok () := by decide
  constructor <;> simp [h, hbudget]

theorem HostState.checkLifecycle_eq_ok {effect : Effect} (h : host.checkLifecycle effect = .ok ()) :
    (effect.isLifecycle = true → host.dispatch = .agreed ∧
      host.effectQueue.countP Effect.isLifecycle = 0 ∧
      host.effectQueue.countP Effect.isSetTimer = 0) ∧
    (effect.isSetTimer = true → host.effectQueue.countP Effect.isLifecycle = 0) := by
  unfold checkLifecycle at h
  split at h
  · rename_i hlife
    simp only [bind_eq_ok, ensure_eq_ok, List.any_eq_false] at h
    obtain ⟨_, hagreed, _, hnone, htimer⟩ := h
    refine ⟨fun _ => ⟨hagreed, List.countP_eq_zero.2 hnone, List.countP_eq_zero.2 htimer⟩, ?_⟩
    intro hset
    cases effect <;> simp [Effect.isLifecycle, Effect.isSetTimer] at hlife hset
  · rename_i hlife
    refine ⟨fun h => absurd h hlife, ?_⟩
    intro hset
    simp only [ensure_eq_ok, List.any_eq_false, hset, Bool.true_eq_false, false_or] at h
    exact List.countP_eq_zero.2 h

theorem Emitted.called (he : Emitted host) (h : host.Called host') : Emitted host' := by
  cases h with
  | quiet ledger =>
    exact { he with }
  | @emits ledger effect hpermits hrecorded =>
    obtain ⟨hlife, htimer⟩ := HostState.checkLifecycle_eq_ok hrecorded.lifecycle
    have hdirect := hrecorded.direct
    constructor
    · exact hrecorded.budget
    · intro hlocal
      have hold := he.lifecycle_agreed hlocal
      have hnot : effect.isLifecycle = false := by
        by_contra hcon
        rw [(hlife (by simpa using hcon)).1] at hlocal
        cases hlocal
      simp [hold, hnot]
    · have hold := he.lifecycle_le
      by_cases hcase : effect.isLifecycle = true
      · simp [hcase, (hlife hcase).2.1]
      · simpa [hcase] using hold
    · have hold := he.timers
      by_cases hcase : effect.isLifecycle = true
      · refine .inr ?_
        have hset : effect.isSetTimer = false := by
          cases effect <;> simp [Effect.isLifecycle, Effect.isSetTimer] at hcase ⊢
        simp [hset, (hlife hcase).2.2]
      · by_cases hset : effect.isSetTimer = true
        · exact .inl (by simp [hcase, htimer hset])
        · simpa [hcase, hset] using hold
    · intro hagreed
      have hold := he.direct_local hagreed
      have hnot : effect.isSendDirect = false := by
        rcases hdirect with hdirect | hlocal
        · exact hdirect
        · rw [hagreed] at hlocal
          cases hlocal
      simp [hold, hnot]
    · intro hlocal
      by_cases hcase : effect.isBroadcast = true
      · cases effect with
        | broadcast data =>
          have hroom := hpermits hlocal
          refine .inr ?_
          simp only [List.countP_append, List.countP_singleton, hcase, ↓reduceIte]
          omega
        | _ => cases hcase
      · simpa [hcase] using he.broadcasts hlocal
    · intro recipient msg range hmem
      rcases List.mem_append.1 hmem with hmem | hmem
      · exact he.recipients recipient msg range hmem
      · obtain rfl := List.mem_singleton.1 hmem
        exact ⟨hpermits.1, hpermits.2.1⟩
    · intro peer
      show _ ∨ host.queuedTo peer + _ ≤ _
      by_cases hcase : isSendDirectTo peer effect = true
      · cases effect with
        | sendDirect recipient msg range =>
          obtain rfl : recipient = peer := by simpa [isSendDirectTo] using hcase
          have hroom := hpermits.2.2
          refine .inr ?_
          simp only [List.countP_append, List.countP_singleton, hcase, ↓reduceIte]
          omega
        | _ => cases hcase
      · simpa [hcase] using he.lanes peer

/-- The calls of a dispatch change its queue and its ledger only. -/
structure SameScope (host host' : HostState) : Prop where
  dispatch : host'.dispatch = host.dispatch
  outgoingLen : host'.outgoingLen = host.outgoingLen
  directQueued : host'.directQueued = host.directQueued
  peerId : host'.peerId = host.peerId
  session : host'.session = host.session

theorem HostState.Called.sameScope (h : host.Called host') : SameScope host host' := by
  cases h <;> exact ⟨rfl, rfl, rfl, rfl, rfl⟩

/-- What a whole dispatch emits. -/
theorem Emitted.run {fromUtf8Lossy : Bytes → String}
    {calls : List (Bytes × Import)} (he : Emitted host)
    (h : host.run fromUtf8Lossy calls = .ok host') : Emitted host' ∧ SameScope host host' := by
  induction calls generalizing host with
  | nil =>
    cases h
    exact ⟨he, rfl, rfl, rfl, rfl, rfl⟩
  | cons c calls ih =>
    obtain ⟨memory, imported⟩ := c
    simp only [HostState.run, bind_eq_ok, Prod.exists] at h
    obtain ⟨middle, code, hcall, hrest⟩ := h
    have hcalled := HostState.call_called hcall
    have hscope := hcalled.sameScope
    obtain ⟨hemitted, hrun⟩ := ih (he.called hcalled) hrest
    exact ⟨hemitted, hrun.dispatch.trans hscope.dispatch, hrun.outgoingLen.trans hscope.outgoingLen,
      hrun.directQueued.trans hscope.directQueued, hrun.peerId.trans hscope.peerId,
      hrun.session.trans hscope.session⟩

/-- The scope of a dispatch with the lengths the actor passes.  An own message authors the
head it is about to pop, so the head is not counted as committed. -/
def dispatchScope (limits : Limits) (blobs : BlobHash → Except String (Option UInt64))
    (peerId : PeerId) (s : ExecutionState κ) (event : Event) (source : DispatchSource) :
    HostState where
  callKind := .dispatch
  dispatch := if event.isAgreed then .agreed else .local
  outgoingLen :=
    match source with
    | .ownMessage => s.outgoing.length - 1
    | .host | .answer _ | .timer _ | .peerMessage _ | .direct .. => s.outgoing.length
  limits := limits
  effectQueue := []
  ledger := .new
  blobs := if event.isAgreed then none else some blobs
  directQueued := if event.isAgreed then [] else s.directQueueLens
  peerId := some peerId
  session := s.binding.ensemble.toOption

end Sandbox

inductive Actor.Dispatched (s : ExecutionState κ) : Event → DispatchSource → Prop
  | start (ensemble : Ensemble) : Dispatched s (.sessionStarted ensemble) .host
  | timer (timer : TimerPayload) (timerId : TimerId) :
    Dispatched s (.timerFired timer) (.timer timerId)
  | input (calloutIndex : UInt32) (data : Bytes) (pendingId : UInt64) :
      Dispatched s (.inputReceived calloutIndex data) (.answer pendingId)
  | own (msg : Bytes) : Dispatched s (.messageReceived s.producer msg) .ownMessage
  | peer (source : PeerId) (msg : Bytes) (commitment : StepCommitment) :
      Dispatched s (.messageReceived source msg) (.peerMessage commitment)
  | direct (source : PeerId) (seq : UInt64) (msg : Bytes) (attachment : Option UInt32) :
      Dispatched s (.directReceived source msg attachment) (.direct source seq)

/-! ## The checks of the protocol -/

open Sandbox

/-- The error refuses a dispatch on account of one of its effects. -/
def ProtocolError.blames (effects : List Effect) : ProtocolError → Bool
  | .collectionTooLarge kind _ _ | .encodedTooLarge kind _ _ => kind = "effects"
  | .payloadTooLarge kind _ _ => kind ∈ ["terminal outcome", "terminal reason",
      "broadcast payload", "timer type name", "timer data", "direct message", "outgoing message"]
  | .invalidCertificate message => message = "direct range is empty or over its bound" ∨
      message = "proposal effects and trace terminal do not match"
  | .multipleTerminalEffects | .invalidTerminalStatus | .directFromAgreedEvent
  | .directQueueFull _ | .outgoingQueueFull _ _ => true
  | .unknownParticipant peer => effects.any (isSendDirectTo peer)
  | _ => false

variable {effects : List Effect} {outcome : Option (TerminalOutcome κ)} {post : StateHash}

theorem appendBroadcasts_failsOnly {outgoing : List Bytes}
    (h : outgoing.length ≤ maxOutgoingMessages) :
    FailsOnly (fun e => e = .outgoingQueueFull maxOutgoingMessages maxOutgoingMessages ∧
      maxOutgoingMessages < outgoing.length + effects.countP Effect.isBroadcast)
      (appendBroadcasts outgoing effects) := by
  induction effects generalizing outgoing with
  | nil => exact failsOnly_ok
  | cons effect effects ih =>
    cases effect with
    | broadcast data =>
      have hcount : (Effect.broadcast data :: effects).countP Effect.isBroadcast =
          effects.countP Effect.isBroadcast + 1 := List.countP_cons_of_pos rfl
      rw [hcount]
      refine failsOnly_ensure_bind ?_ fun hlt => ?_
      · intro hfull
        have hlen : outgoing.length = maxOutgoingMessages := le_antisymm h (not_lt.1 hfull)
        rw [hlen]
        exact ⟨rfl, by omega⟩
      · intro e he
        obtain ⟨rfl, hover⟩ := ih (by simp; omega) e he
        refine ⟨rfl, ?_⟩
        simp only [List.length_append, List.length_singleton] at hover
        omega
    | _ => simpa [appendBroadcasts, Effect.isBroadcast] using ih h

theorem appendBroadcasts_eq_ok {outgoing result : List Bytes}
    (hlen : outgoing.length ≤ maxOutgoingMessages)
    (h : appendBroadcasts outgoing effects = .ok result) :
    result.length ≤ maxOutgoingMessages ∧
      ∀ m ∈ result, m ∈ outgoing ∨ .broadcast m ∈ effects := by
  induction effects generalizing outgoing with
  | nil =>
    cases h
    exact ⟨hlen, fun m hm => .inl hm⟩
  | cons effect effects ih =>
    cases effect with
    | broadcast data =>
      simp only [appendBroadcasts, bind_eq_ok, ensure_eq_ok] at h
      obtain ⟨_, hroom, h⟩ := h
      obtain ⟨hle, hmem⟩ := ih (by simp; omega) h
      refine ⟨hle, fun m hm => ?_⟩
      rcases hmem m hm with hm | hm
      · rcases List.mem_append.1 hm with hm | hm
        · exact .inl hm
        · obtain rfl := List.mem_singleton.1 hm
          exact .inr (by simp)
      · exact .inr (List.mem_cons_of_mem _ hm)
    | _ =>
      obtain ⟨hle, hmem⟩ := ih hlen h
      exact ⟨hle, fun m hm => (hmem m hm).imp id (List.mem_cons_of_mem _)⟩

theorem validateOutgoing_append {outgoing result : List Bytes}
    (hvalid : validateOutgoing outgoing = .ok ()) (hbudget : checkEffectBudget effects = .ok ())
    (h : appendBroadcasts outgoing effects = .ok result) : validateOutgoing result = .ok () := by
  obtain ⟨hlen, hold⟩ := validateOutgoing_eq_ok.1 hvalid
  obtain ⟨hle, hmem⟩ := appendBroadcasts_eq_ok hlen h
  refine validateOutgoing_eq_ok.2 ⟨hle, fun m hm => ?_⟩
  rcases hmem m hm with hm | hm
  · exact hold m hm
  · have hpayload := ((checkEffectBudget_eq_ok.1 hbudget).2.1 _ hm).1
    simpa [Effect.validatePayload, ensurePayload] using hpayload

theorem queueDirect_failsOnly {s : ExecutionState κ} {direct : OrdMap PeerId DirectLane}
    (hrecipient : ∀ recipient msg range, .sendDirect recipient msg range ∈ effects →
      recipient ≠ s.producer ∧ s.binding.isParticipant recipient = true)
    (hroom : ∀ peer, effects.countP (isSendDirectTo peer) = 0 ∨
      ((direct.get? peer).getD .default).queue.length + effects.countP (isSendDirectTo peer)
        ≤ maxDirectQueue) : FailsOnly (· = .versionExhausted) (s.queueDirect direct effects) := by
  induction effects generalizing direct with
  | nil => exact failsOnly_ok
  | cons effect effects ih =>
    have hrest := fun recipient msg range hmem =>
      hrecipient recipient msg range (List.mem_cons_of_mem effect hmem)
    cases effect with
    | sendDirect recipient msg range =>
      have hself := hroom recipient
      simp only [isSendDirectTo, decide_true, List.countP_cons_of_pos] at hself
      have hknown := hrecipient recipient msg range (by simp)
      refine failsOnly_ensure_bind (fun hne => absurd hknown hne) fun _ => ?_
      refine failsOnly_ensure_bind (fun hfull => by omega) fun _ => ?_
      refine failsOnly_okOr_bind (fun _ => rfl) fun seq _ => ?_
      refine ih hrest fun peer => ?_
      by_cases hpeer : peer = recipient
      · subst hpeer
        simp only [OrdMap.get?_insert_self, Option.getD_some, List.length_append,
          List.length_singleton]
        omega
      · have hne : isSendDirectTo peer (.sendDirect recipient msg range) = false := by
          simpa [isSendDirectTo] using Ne.symm hpeer
        rw [OrdMap.get?_insert_of_ne _ _ hpeer]
        simpa [hne] using hroom peer
    | _ => exact ih hrest (by simpa [isSendDirectTo] using hroom)

theorem ExecutionBinding.isParticipant_of_ensemble {b : ExecutionBinding κ} {ensemble : Ensemble}
    {peer : PeerId} (h : b.ensemble = .ok ensemble) (hpeer : peer ∈ ensemble.peers) :
    b.isParticipant peer = true := by
  have hpeers : ensemble.peers = sortDedup b.participants := by
    unfold ExecutionBinding.ensemble Ensemble.fromPeers at h
    split at h
    · cases h
    · split at h
      · cases h
      · cases h
        rfl
  rw [hpeers] at hpeer
  have hsorted := (List.destutter_sublist _ _).subset hpeer
  have hmem := (List.perm_insertionSort (· ≤ ·) b.participants).mem_iff.1 hsorted
  simpa [ExecutionBinding.isParticipant] using hmem

theorem queuedTo_dispatchScope {limits : Limits}
    {blobs : BlobHash → Except String (Option UInt64)} {peerId : PeerId} {s : ExecutionState κ}
    {event : Event} {source : DispatchSource} (hlocal : event.isAgreed = false) (peer : PeerId) :
    (dispatchScope limits blobs peerId s event source).queuedTo peer =
      (s.lane peer).queue.length := by
  have hlist : ∀ l : List (PeerId × DirectLane), (l.Pairwise fun x y => x.1 < y.1) →
      ((((l.filter fun p => !p.2.queue.isEmpty).map fun p => (p.1, p.2.queue.length)).find?
        (·.1 = peer)).map (·.2)).getD 0 =
        ((OrdMap.lookupList peer l).getD .default).queue.length := by
    intro l hl
    induction l with
    | nil => rfl
    | cons p l ih =>
      obtain ⟨hp, htail⟩ := List.pairwise_cons.1 hl
      obtain ⟨key, lane⟩ := p
      have hrest := ih htail
      by_cases hkey : key = peer
      · subst hkey
        by_cases hempty : lane.queue = []
        · have hnone : (((l.filter fun p => !p.2.queue.isEmpty).map
              fun p => (p.1, p.2.queue.length)).find? (·.1 = key)) = none := by
            simp only [List.find?_eq_none, List.mem_map, List.mem_filter]
            rintro _ ⟨q, ⟨hq, -⟩, rfl⟩
            simpa using (hp q hq).ne'
          simp only [List.filter_cons, OrdMap.lookupList, hempty]
          simp [hnone, hempty]
        · simp [OrdMap.lookupList, hempty]
      · by_cases hempty : lane.queue = [] <;>
          simpa [List.filter_cons, OrdMap.lookupList, hempty, hkey] using hrest
  simp only [HostState.queuedTo, dispatchScope, hlocal, Bool.false_eq_true, ↓reduceIte]
  exact hlist s.direct.entries s.direct.sorted

/-! ### Local events -/

section

variable {s : ExecutionState κ} {event : Event} {result : DispatchResult κ}

/-- The error does not refuse the dispatch on account of an effect. -/
abbrev Spares (effects : List Effect) (e : ProtocolError) : Prop := e.blames effects = false

variable {effects : List Effect}

theorem validateCalloutDispatch_spares {pendingId : Option UInt64} :
    FailsOnly (Spares effects) (s.validateCalloutDispatch event pendingId) := by
  unfold ExecutionState.validateCalloutDispatch
  split
  · refine failsOnly_okOr_bind (fun _ => rfl) fun _ _ => ?_
    refine failsOnly_okOr_bind (fun _ => rfl) fun _ _ => ?_
    refine failsOnly_ensure_bind (fun _ => rfl) fun _ => ?_
    exact failsOnly_ensure fun _ => rfl
  · exact failsOnly_ensure fun _ => rfl

theorem bumpVersion_spares : FailsOnly (Spares effects) s.bumpVersion :=
  failsOnly_okOr_bind (fun _ => rfl) fun _ _ => failsOnly_pure

theorem installDispatch_spares {position : UInt64} {shared : SharedStateBytes}
    {localState : LocalStateBytes} {outgoing : List Bytes}
    {callout : Option OpenCallout} (hout : validateOutgoing outgoing = .ok ()) :
    FailsOnly (Spares effects)
      (s.installDispatch position shared localState post outgoing .active callout) := by
  refine failsOnly_ensure_bind (fun _ => rfl) fun _ => ?_
  refine failsOnly_ensure_bind (fun _ => rfl) fun _ => ?_
  refine failsOnly_ensure_bind (fun h => absurd rfl h) fun _ => ?_
  refine failsOnly_ensure_bind (fun _ => by simp [Spares, ProtocolError.blames]) fun _ => ?_
  refine failsOnly_ensure_bind (fun _ => rfl) fun _ => ?_
  refine (failsOnly_of_ok hout).bind fun _ _ => ?_
  exact failsOnly_okOr_bind (fun _ => rfl) fun _ _ => bumpVersion_spares

theorem applyLocal_spares (hs : s.Recoverable)
    (hbudget : checkEffectBudget result.effects = .ok ())
    (hbroadcasts : result.effects.countP Effect.isBroadcast = 0 ∨
      s.outgoing.length + result.effects.countP Effect.isBroadcast ≤ maxOutgoingMessages)
    (hrecipient : ∀ recipient msg range, .sendDirect recipient msg range ∈ result.effects →
      recipient ≠ s.producer ∧ s.binding.isParticipant recipient = true)
    (hlanes : ∀ peer, result.effects.countP (isSendDirectTo peer) = 0 ∨
      (s.lane peer).queue.length + result.effects.countP (isSendDirectTo peer) ≤ maxDirectQueue) :
    FailsOnly (Spares result.effects) (s.applyLocal event result post none) := by
  have hlen := (validateOutgoing_eq_ok.1 hs.outgoing).1
  refine failsOnly_ensure_bind (fun h => absurd rfl h) fun _ => ?_
  refine failsOnly_ensure_bind (fun _ => rfl) fun _ => ?_
  refine failsOnly_ensure_bind (fun _ => rfl) fun _ => ?_
  refine FailsOnly.bind ?_ fun outgoing hout => FailsOnly.bind ?_ fun direct _ => ?_
  · intro e he
    obtain ⟨-, hover⟩ := appendBroadcasts_failsOnly hlen e he
    omega
  · intro e he
    obtain rfl := queueDirect_failsOnly hrecipient hlanes e he
    rfl
  · have hvalid := validateOutgoing_append hs.outgoing hbudget hout
    exact (installDispatch_spares hvalid).bind fun _ _ => failsOnly_pure

/-! ### Agreed events -/

theorem singleLifecycleEffect_of_le (h : effects.countP Effect.isLifecycle ≤ 1) :
    ∃ lifecycle, singleLifecycleEffect effects = .ok lifecycle ∧
      (effects.countP Effect.isLifecycle = 0 → lifecycle = none) ∧
      ∀ effect ∈ lifecycle, effect ∈ effects := by
  rw [List.countP_eq_length_filter] at h ⊢
  unfold singleLifecycleEffect
  match hfilter : effects.filter Effect.isLifecycle with
  | [] => exact ⟨none, rfl, fun _ => rfl, by simp⟩
  | [effect] =>
    have hmem : effect ∈ effects.filter Effect.isLifecycle := by simp [hfilter]
    refine ⟨some effect, rfl, by simp, ?_⟩
    intro e he
    cases he
    exact (List.mem_filter.1 hmem).1
  | _ :: _ :: _ =>
    rw [hfilter] at h
    simp only [List.length_cons] at h
    omega

theorem singleLifecycleEffect_kept {indexed : List (UInt32 × Effect)}
    (h : indexedDispatchEffects effects = .ok indexed) :
    singleLifecycleEffect ((indexed.filter fun p => !p.2.isBroadcast).map (·.2)) =
      singleLifecycleEffect effects := by
  simp only [indexedDispatchEffects, bind_eq_ok, pure_eq_ok] at h
  obtain ⟨_, -, rfl⟩ := h
  have hmap : (effects.zipIdx.map fun p => (UInt32.ofNat p.2, p.1)).map (·.2) = effects := by
    rw [List.map_map]
    exact List.zipIdx_map_fst 0 effects
  have hkept : ∀ l : List (UInt32 × Effect),
      ((l.filter fun p => !p.2.isBroadcast).map (·.2)).filter Effect.isLifecycle =
        (l.map (·.2)).filter Effect.isLifecycle := by
    intro l
    simp only [List.filter_map, List.filter_filter]
    congr 1
    apply List.filter_congr
    intro p _
    cases hp : p.2 <;> simp [hp, Effect.isLifecycle, Effect.isBroadcast]
  unfold singleLifecycleEffect
  rw [hkept, hmap]

theorem validateTerminal_of_budget {effect : Effect} {terminal : StepTerminal}
    (h : effect.validatePayload = .ok ()) (hterm : StepTerminal.fromEffect effect = some terminal) :
    validateTerminal terminal = .ok () := by
  cases effect with
  | sessionEnd | sessionAbort | fail =>
    cases hterm
    exact h
  | _ => cases hterm

theorem popOwnMessage_spares : FailsOnly (Spares effects) (s.popOwnMessage event) := by
  unfold ExecutionState.popOwnMessage
  split
  · split
    · split
      · exact failsOnly_ensure_bind (fun _ => rfl) fun _ => failsOnly_pure
      · exact failsOnly_error rfl
    · exact failsOnly_ok
  · exact failsOnly_ok

theorem popOwnMessage_suffix {rest : List Bytes} (h : s.popOwnMessage event = .ok rest) :
    rest <:+ s.outgoing := by
  unfold ExecutionState.popOwnMessage at h
  split at h
  · split at h
    · split at h
      · rename_i head tail hout
        simp only [bind_eq_ok, pure_eq_ok] at h
        obtain ⟨_, -, rfl⟩ := h
        rw [hout]
        exact List.suffix_cons head tail
      · cases h
    · cases h
      exact List.suffix_rfl
  · cases h
    exact List.suffix_rfl

theorem validateOutgoing_suffix {outgoing rest : List Bytes}
    (hvalid : validateOutgoing outgoing = .ok ()) (h : rest <:+ outgoing) :
    validateOutgoing rest = .ok () := by
  obtain ⟨hlen, hall⟩ := validateOutgoing_eq_ok.1 hvalid
  exact validateOutgoing_eq_ok.2 ⟨h.length_le.trans hlen, fun m hm => hall m (h.subset hm)⟩

theorem fromProposalEntry_spares {entry : TraceEntry} {commitment : StepCommitment}
    (hterm : ∀ terminal ∈ entry.terminal, validateTerminal terminal = .ok ()) :
    FailsOnly (Spares effects) (ExecutionStatus.fromProposalEntry entry commitment outcome) := by
  unfold ExecutionStatus.fromProposalEntry
  split
  · refine failsOnly_okOr_bind (fun _ => rfl) fun _ _ => ?_
    exact failsOnly_ensure_bind (fun _ => rfl) fun _ => failsOnly_pure
  iterate 2
    · rename_i reason hcase
      have hreason : ensureReason reason = .ok () := hterm _ hcase
      refine failsOnly_ensure_bind (fun _ => rfl) fun _ => ?_
      simp only [ExecutionStatus.fromSharedEntry, hcase, hreason, ok_bind]
      exact failsOnly_ok
  · exact failsOnly_ensure_bind (fun _ => rfl) fun _ => failsOnly_pure

theorem fromProposalEntry_valid {binding : ExecutionBinding κ} {agreed next : StepCursor}
    {entry : TraceEntry} {status : ExecutionStatus κ}
    (h : ExecutionStatus.fromProposalEntry entry
      (.forEntry κ binding.sessionId entry agreed.chainHash) outcome = .ok status)
    (hadvance : agreed.advance κ (.forEntry κ binding.sessionId entry agreed.chainHash)
      = .ok next) :
    status.validateBinding binding next = .ok () ∧
      ExecutionStatus.validateProposalStatus entry
        (.forEntry κ binding.sessionId entry agreed.chainHash) status = .ok () := by
  obtain ⟨hstep, hcommitted, -, -, hpost, hlink⟩ := StepCursor.advance_eq_ok.1 hadvance
  rw [← hcommitted] at hstep
  have hnext : next.nextStep ≠ 0 := by
    intro h0
    have hsum := checkedAdd_eq_some hstep
    rw [h0] at hsum
    simp at hsum
  have hcause : ∀ kind reason, ensureReason reason = .ok () →
      (ExecutionStatus.stopped (κ := κ) (.shared kind
        (.forEntry κ binding.sessionId entry agreed.chainHash) reason)).validateBinding binding next
          = .ok () := by
    intro kind reason hreason
    simp only [ExecutionStatus.validateBinding, StopCause.validate, StopCause.validateBinding,
      bind_eq_ok, ensure_eq_ok]
    exact ⟨(), ⟨(), by simp [StepCommitment.hasStepDomain, StepCommitment.forEntry], hreason⟩,
      by simp [StepCommitment.isBoundTo, StepCommitment.hasStepDomain, StepCommitment.forEntry],
      hstep, hpost.symm, hlink.symm⟩
  unfold ExecutionStatus.fromProposalEntry at h
  split at h
  · rename_i effectOutcome hcase
    simp only [bind_eq_ok, okOr_eq_ok, ensure_eq_ok, pure_eq_ok] at h
    obtain ⟨outcome, -, _, hborsh, rfl⟩ := h
    simp only [ExecutionStatus.validateBinding, ExecutionStatus.validateProposalStatus, hcase,
      outcome.validate_eq_ok, ok_bind, ensure_eq_ok]
    exact ⟨hnext, hborsh⟩
  iterate 2
    · rename_i reason hcase
      simp only [ExecutionStatus.fromSharedEntry, hcase, bind_eq_ok, okOr_eq_ok, pure_eq_ok] at h
      obtain ⟨_, -, _, ⟨_, hreason, rfl⟩, hstatus⟩ := h
      cases hstatus
      refine ⟨hcause _ reason hreason, ?_⟩
      simp [ExecutionStatus.validateProposalStatus, hcase]
  · rename_i hcase
    simp only [bind_eq_ok, pure_eq_ok] at h
    obtain ⟨_, -, rfl⟩ := h
    simp [ExecutionStatus.validateBinding, ExecutionStatus.validateProposalStatus, hcase]

theorem invalidEnsemble_spares (error : EnsembleError) (effects : List Effect) :
    Spares effects (.invalidCertificate (toString error)) := by
  have hhead : ∀ text : String, text.toList.head? ≠ some 's' → toString error ≠ text := by
    rintro text htext rfl
    cases error <;> exact htext (by simp [toString, String.toList_append])
  have hrange := hhead "direct range is empty or over its bound" (by decide)
  have hterminal := hhead "proposal effects and trace terminal do not match" (by decide)
  simp [Spares, ProtocolError.blames, hrange, hterminal]

section

variable {effects : List Effect} {binding : ExecutionBinding κ} {agreed : StepCursor}
  {entry : TraceEntry}

theorem advance_spares {commitment : StepCommitment} :
    FailsOnly (Spares effects) (agreed.advance κ commitment) := by
  refine failsOnly_okOr_bind (fun _ => rfl) fun _ _ => ?_
  refine failsOnly_ensure_bind (fun _ => rfl) fun _ => ?_
  refine failsOnly_ensure_bind (fun _ => rfl) fun _ => ?_
  exact failsOnly_ensure_bind (fun _ => rfl) fun _ => failsOnly_pure

theorem validateTraceEntry_spares
    (hterm : ∀ terminal ∈ entry.terminal, validateTerminal terminal = .ok ()) :
    FailsOnly (Spares effects) (validateTraceEntry entry) := by
  refine failsOnly_ensure_bind (fun _ => rfl) fun _ => ?_
  refine failsOnly_okOr_bind (fun _ => rfl) fun _ _ => ?_
  refine failsOnly_ensure_bind (fun _ => rfl) fun _ => ?_
  cases entry.event with
  | sessionStarted ensemble =>
    split
    · rename_i terminal hcase
      exact failsOnly_of_ok (hterm terminal hcase)
    · exact failsOnly_ok
  | message source data =>
    refine failsOnly_ensure_bind (fun _ => ?_) fun _ => ?_
    · simp [Spares, ProtocolError.blames]
    · split
      · rename_i terminal hcase
        exact failsOnly_of_ok (hterm terminal hcase)
      · exact failsOnly_ok

theorem validateSharedEntry_spares {step : UInt64}
    (hdirect : ∀ peer, effects.any (isSendDirectTo peer) = false)
    (hterm : ∀ terminal ∈ entry.terminal, validateTerminal terminal = .ok ()) :
    FailsOnly (Spares effects) (validateSharedEntry binding step entry) := by
  refine (validateTraceEntry_spares hterm).bind fun _ _ => ?_
  refine failsOnly_ensure_bind (fun _ => rfl) fun _ => ?_
  split
  · refine failsOnly_ensure_bind (fun _ => rfl) fun _ => ?_
    refine (failsOnly_mapError fun e => invalidEnsemble_spares e effects).bind fun _ _ => ?_
    exact failsOnly_ensure fun _ => rfl
  · refine failsOnly_ensure_bind (fun _ => rfl) fun _ => FailsOnly.bind ?_ fun _ _ => failsOnly_pure
    refine failsOnly_okOr_bind (fun _ => hdirect _) fun ticket _ => ?_
    cases ticket.data.action with
    | active => exact failsOnly_ok
    | withdrawn => exact failsOnly_error rfl

theorem validateProposal_spares {proposal : SharedProposal κ} {position : UInt64}
    {lifecycle : Option Effect}
    (hdirect : ∀ peer, effects.any (isSendDirectTo peer) = false)
    (hterm : ∀ terminal ∈ proposal.entry.terminal, validateTerminal terminal = .ok ())
    (hsignatures : proposal.signatures = [])
    (hlifecycle : singleLifecycleEffect (proposal.effects.map (·.2)) = .ok lifecycle)
    (hentry : lifecycle.bind StepTerminal.fromEffect = proposal.entry.terminal)
    (hstatus : ExecutionStatus.fromProposalEntry proposal.entry
      (.forEntry κ binding.sessionId proposal.entry agreed.chainHash) outcome
        = .ok proposal.status) :
    FailsOnly (Spares effects) (validateProposal binding agreed position proposal) := by
  refine (validateSharedEntry_spares hdirect hterm).bind fun _ _ => ?_
  iterate 4 refine failsOnly_ensure_bind (fun _ => by simp [Spares, ProtocolError.blames]) fun _ => ?_
  refine advance_spares.bind fun next hadvance => ?_
  refine (failsOnly_of_ok hlifecycle).bind fun found hfound => ?_
  obtain rfl := Except.ok.inj (hlifecycle.symm.trans hfound)
  refine failsOnly_ensure_bind (fun hne => absurd hentry hne) fun _ => ?_
  obtain ⟨hbinding, hvalid⟩ := fromProposalEntry_valid hstatus hadvance
  refine (failsOnly_of_ok hbinding).bind fun _ _ => (failsOnly_of_ok hvalid).bind fun _ _ => ?_
  refine FailsOnly.bind ?_ fun participants _ => ?_
  · exact failsOnly_ensure_bind (fun _ => rfl) fun _ => failsOnly_pure
  -- nobody has signed a proposal that is about to be staged
  · simp only [hsignatures]
    exact failsOnly_ensure_bind (fun h => absurd (Nat.zero_le _) h) fun _ => failsOnly_ok

theorem checkReceiptBudget_spares : FailsOnly (Spares effects) (s.checkReceiptBudget entry) := by
  obtain ⟨signers, hfull⟩ : ∃ signers,
      SignerSet.full s.binding.activation.tickets.length = .ok signers := by
    simp [SignerSet.full, s.binding.length_le]
  refine FailsOnly.bind ?_ fun _ _ => ?_
  · refine (failsOnly_of_ok (mapError_eq_ok.2 hfull)).bind fun _ _ => ?_
    exact failsOnly_okOr_bind (fun _ => rfl) fun _ _ => failsOnly_pure
  · exact failsOnly_ensure_bind (fun _ => rfl) fun _ => failsOnly_pure

end

/-- An agreed dispatch is refused for an effect only when its broadcasts overflow the queue
that the own message has left. -/
theorem applyAgreed_failsOnly {indexed : List (UInt32 × Effect)} {lifecycle : Option Effect}
    (hs : s.Recoverable) (hbudget : checkEffectBudget result.effects = .ok ())
    (hdirect : ∀ peer, result.effects.any (isSendDirectTo peer) = false)
    (hindexed : indexedDispatchEffects result.effects = .ok indexed)
    (hlifecycle : singleLifecycleEffect result.effects = .ok lifecycle)
    (hmem : ∀ effect ∈ lifecycle, effect ∈ result.effects) :
    FailsOnly (fun e => Spares result.effects e ∨
        e = .outgoingQueueFull maxOutgoingMessages maxOutgoingMessages ∧
        ∃ rest, s.popOwnMessage event = .ok rest ∧
          maxOutgoingMessages < rest.length + result.effects.countP Effect.isBroadcast)
      (s.applyAgreed event result (.ofShared κ result.sharedState) indexed lifecycle) := by
  have hterm : ∀ terminal ∈ lifecycle.bind StepTerminal.fromEffect,
      validateTerminal terminal = .ok () := by
    intro terminal hterminal
    obtain ⟨effect, heffect, hfrom⟩ := Option.bind_eq_some_iff.1 hterminal
    have hpayload := (checkEffectBudget_eq_ok.1 hbudget).2.1 effect (hmem effect heffect)
    exact validateTerminal_of_budget hpayload.1 hfrom
  refine (popOwnMessage_spares.mono fun _ => .inl).bind fun rest hrest => ?_
  have hvalid := validateOutgoing_suffix hs.outgoing (popOwnMessage_suffix hrest)
  refine failsOnly_okOr_bind (fun _ => .inl (by simp [Spares, ProtocolError.blames]))
    fun traceEvent _ => ?_
  refine FailsOnly.bind ?_ fun outgoing hout => ?_
  · intro e he
    obtain ⟨hfull, hover⟩ := appendBroadcasts_failsOnly (validateOutgoing_eq_ok.1 hvalid).1 e he
    exact .inr ⟨hfull, rest, hrest, hover⟩
  -- from here on nothing refuses an effect
  refine FailsOnly.mono ?_ fun _ => .inl
  have hvalid' := validateOutgoing_append hvalid hbudget hout
  refine (fromProposalEntry_spares hterm).bind fun status hstatus => ?_
  have hkept := validateEffects_filter hbudget hindexed fun p => !p.2.isBroadcast
  refine FailsOnly.bind ?_ fun proposal hproposal => ?_
  · refine failsOnly_ensure_bind (fun hlen => ?_) fun _ => ?_
    · simp only [validateEffects, bind_eq_ok] at hkept
      obtain ⟨_, -, _, -, hkept⟩ := hkept
      have hle := (checkEffectBudget_eq_ok.1 hkept).1
      rw [List.length_map] at hle
      exact absurd hle hlen
    · refine (failsOnly_of_ok hvalid').bind fun _ _ => ?_
      exact failsOnly_ensure_bind (fun _ => rfl) fun _ => failsOnly_pure
  · simp only [SharedProposal.new, bind_eq_ok, pure_eq_ok] at hproposal
    obtain ⟨_, -, _, -, _, -, rfl⟩ := hproposal
    refine FailsOnly.bind ?_ fun _ _ => failsOnly_pure
    refine failsOnly_ensure_bind (fun _ => rfl) fun _ => ?_
    refine failsOnly_ensure_bind (fun _ => rfl) fun _ => ?_
    refine failsOnly_ensure_bind (fun _ => by simp [Spares, ProtocolError.blames]) fun _ => ?_
    refine failsOnly_okOr_bind (fun _ => rfl) fun _ _ => ?_
    have hsingle := (singleLifecycleEffect_kept hindexed).trans hlifecycle
    refine (validateProposal_spares hdirect hterm rfl hsingle rfl hstatus).bind fun _ _ => ?_
    exact checkReceiptBudget_spares.bind fun _ _ => bumpVersion_spares

/-! ### Emitted effects -/

variable {limits : Limits} {blobs : BlobHash → Except String (Option UInt64)} {peerId : PeerId}
  {source : DispatchSource} {scope : HostState}

theorem applyLocal_spares_of_emitted (hs : s.Recoverable)
    (hproducer : s.producer = peerId) (hdispatched : Actor.Dispatched s event source)
    (hlocal : event.isAgreed = false)
    (hscope : SameScope (dispatchScope limits blobs peerId s event source) scope)
    (hemitted : Emitted scope) (heffects : result.effects = scope.effectQueue) :
    FailsOnly (Spares result.effects) (s.applyLocal event result post none) := by
  have hkind : scope.dispatch = .local := by simp [hscope.dispatch, dispatchScope, hlocal]
  refine applyLocal_spares hs (heffects ▸ hemitted.budget) ?_ ?_ ?_
  · have hout : scope.outgoingLen = s.outgoing.length := by
      rw [hscope.outgoingLen]
      cases hdispatched with
      | own => cases hlocal
      | _ => rfl
    have hbroadcasts := hemitted.broadcasts hkind
    rwa [hout, ← heffects] at hbroadcasts
  · intro recipient msg range hsend
    rw [heffects] at hsend
    obtain ⟨hself, session, hsession, hpeer⟩ := hemitted.recipients recipient msg range hsend
    rw [hscope.peerId] at hself
    have hensemble : s.binding.ensemble = .ok session := by
      rw [hscope.session] at hsession
      change s.binding.ensemble.toOption = some session at hsession
      cases h : s.binding.ensemble with
      | error error => simp [h, Except.toOption] at hsession
      | ok found =>
        simp only [h, Except.toOption, Option.some.injEq] at hsession
        rw [hsession]
    refine ⟨?_, ExecutionBinding.isParticipant_of_ensemble hensemble hpeer⟩
    rintro rfl
    exact hself (congrArg some hproducer.symm)
  · intro peer
    have hlanes := hemitted.lanes peer
    have hqueued : scope.queuedTo peer = (s.lane peer).queue.length := by
      rw [← queuedTo_dispatchScope hlocal peer, HostState.queuedTo, HostState.queuedTo,
        hscope.directQueued]
    rwa [hqueued, ← heffects] at hlanes

theorem isSendDirect_of_emitted (hagreed : event.isAgreed = true)
    (hscope : SameScope (dispatchScope limits blobs peerId s event source) scope)
    (hemitted : Emitted scope) : ∀ effect ∈ scope.effectQueue, effect.isSendDirect = false := by
  have hdirect := hemitted.direct_local (by simp [hscope.dispatch, dispatchScope, hagreed])
  simpa [List.countP_eq_zero] using hdirect

/-- Emitted effects are refused only when the broadcasts of an agreed event overflow. -/
theorem applyDispatch_failsOnly (hs : s.Recoverable) (hproducer : s.producer = peerId)
    (hdispatched : Actor.Dispatched s event source)
    (hscope : SameScope (dispatchScope limits blobs peerId s event source) scope)
    (hemitted : Emitted scope) (heffects : result.effects = scope.effectQueue) :
    FailsOnly (fun e => Spares result.effects e ∨ event.isAgreed = true ∧
        e = .outgoingQueueFull maxOutgoingMessages maxOutgoingMessages ∧
        ∃ rest, s.popOwnMessage event = .ok rest ∧
          maxOutgoingMessages < rest.length + result.effects.countP Effect.isBroadcast)
      (s.applyDispatch event result source.pendingId) := by
  have hbudget := hemitted.budget
  have hle := hemitted.lifecycle_le
  have htimers := hemitted.timers
  rw [← heffects] at hbudget hle htimers
  obtain ⟨lifecycle, hlifecycle, hnone, hmem⟩ := singleLifecycleEffect_of_le hle
  have hlen : result.effects.length ≤ 2 ^ 32 :=
    (checkEffectBudget_eq_ok.1 hbudget).1.trans (by decide)
  obtain ⟨indexed, hindexed⟩ : ∃ indexed, indexedDispatchEffects result.effects = .ok indexed := by
    simpa [indexedDispatchEffects] using hlen
  refine failsOnly_ensure_bind (fun _ => .inl rfl) fun _ => ?_
  refine (failsOnly_of_ok hindexed).bind fun found hfound => ?_
  obtain rfl := Except.ok.inj (hindexed.symm.trans hfound)
  refine (failsOnly_of_ok hlifecycle).bind fun found hfound => ?_
  obtain rfl := Except.ok.inj (hlifecycle.symm.trans hfound)
  refine failsOnly_ensure_bind (fun hcombined => ?_) fun _ => ?_
  · refine absurd (htimers.imp hnone fun h => ?_) hcombined
    simpa [List.countP_eq_zero] using h
  refine (validateCalloutDispatch_spares.mono fun _ => .inl).bind fun _ _ => ?_
  refine (failsOnly_of_ok hbudget).bind fun _ _ => ?_
  split
  · rename_i hagreed
    have hdirect := isSendDirect_of_emitted hagreed hscope hemitted
    rw [← heffects] at hdirect
    refine failsOnly_ensure_bind (fun h => absurd (by simpa using hdirect) h) fun _ => ?_
    refine (applyAgreed_failsOnly hs hbudget ?_ hindexed hlifecycle hmem).mono ?_
    · intro peer
      rw [List.any_eq_false]
      intro effect heffect
      have hnot := hdirect effect heffect
      cases effect <;> simp [Effect.isSendDirect, isSendDirectTo] at hnot ⊢
    · exact fun e he => he.imp id fun h => ⟨hagreed, h⟩
  · rename_i hlocal
    have hlocal : event.isAgreed = false := by simpa using hlocal
    have hzero := hemitted.lifecycle_agreed (by simp [hscope.dispatch, dispatchScope, hlocal])
    rw [← heffects] at hzero
    obtain rfl := hnone hzero
    refine FailsOnly.mono (FailsOnly.bind ?_ fun _ _ => failsOnly_pure) fun _ => .inl
    exact applyLocal_spares_of_emitted hs hproducer hdispatched hlocal hscope hemitted heffects

end

/-- What the sandbox lets through, the protocol refuses for no effect, except broadcasts of an
agreed event that overflow the outgoing queue. -/
theorem emitted_effects_accepted {keys : Actor.HostKeys} {host : Host κ} {s : ExecutionState κ}
    (hreachable : host.Reachable keys) (hlive : host.live = some s) {event : Event}
    {source : DispatchSource} (hdispatched : Actor.Dispatched s event source) (limits : Limits)
    (blobs : BlobHash → Except String (Option UInt64)) (fromUtf8Lossy : Bytes → String)
    {calls : List (Bytes × Import)} {scope : HostState}
    (hrun : (dispatchScope limits blobs keys.peerId s event source).run fromUtf8Lossy calls
      = .ok scope)
    {result : DispatchResult κ} (heffects : result.effects = scope.effectQueue) {e : ProtocolError}
    (hrefused : s.applyDispatch event result source.pendingId = .error e)
    (hblames : e.blames result.effects = true) :
    event.isAgreed = true ∧ e = .outgoingQueueFull maxOutgoingMessages maxOutgoingMessages ∧
      ∃ rest, s.popOwnMessage event = .ok rest ∧
        maxOutgoingMessages < rest.length + result.effects.countP Effect.isBroadcast := by
  have hsound := hreachable.sound
  obtain rfl := hsound.live_eq hlive
  obtain ⟨hemitted, hscope⟩ := (emitted_nil rfl).run hrun
  have hfails := applyDispatch_failsOnly hsound.recoverable hsound.producer hdispatched hscope
    hemitted heffects
  rcases hfails e hrefused with hspared | hoverflow
  · rw [Spares, hblames] at hspared
    cases hspared
  · exact hoverflow

namespace Sample

def startEvent : Event :=
  .sessionStarted bothPeers

def limits : Sandbox.Limits := ⟨1000, 1000, 1000, 100000⟩

/-- The scope in which a session start has broadcast an empty message seventeen times. -/
def floodScope : Except Trap HostState :=
  (dispatchScope limits (fun _ => .ok none) (peer 1) activeHost.db.state startEvent .host).run
    (fun _ => "") (List.replicate 17 ([], .broadcast 0 0))

end Sample

open Sample in
/-- A session start that broadcasts more messages than the queue holds. -/
theorem emitted_effects_accepted_overflow :
    ∃ scope, floodScope = .ok scope ∧
      activeHost.db.state.applyDispatch startEvent
        ⟨shared, localState, scope.effectQueue, none, none⟩ none
          = .error (.outgoingQueueFull maxOutgoingMessages maxOutgoingMessages) ∧
      startEvent.isAgreed = true := by
  have hqueue : floodScope.toOption.map HostState.effectQueue =
      some (List.replicate 17 (.broadcast [])) := by decide +kernel
  obtain ⟨scope, hscope, heffects⟩ := Option.map_eq_some_iff.1 hqueue
  have hrun : floodScope = .ok scope := by
    cases h : floodScope with
    | error trap => simp [h, Except.toOption] at hscope
    | ok found =>
      simp only [h, Except.toOption, Option.some.injEq] at hscope
      rw [hscope]
  have hrefused : activeHost.db.state.applyDispatch startEvent
      ⟨shared, localState, scope.effectQueue, none, none⟩ none
        = .error (.outgoingQueueFull maxOutgoingMessages maxOutgoingMessages) := by
    rw [heffects]
    decide +kernel
  have hreachable : activeHost.Reachable (keys 1) := ⟨db 1, _, created_one, rfl⟩
  have hlive : activeHost.live = some activeHost.db.state := by decide +kernel
  have haccepted := emitted_effects_accepted hreachable hlive (.start _) limits
    (fun _ => .ok none) (fun _ => "") hrun rfl hrefused rfl
  exact ⟨scope, hrun, hrefused, haccepted.1⟩

end Arena0
