import Arena0.Signing

/-!
# The end handshake

A terminal execution waits for every other participant to confirm its conclusion.
The set it waits for starts as all other participants, loses exactly the peers that
confirmed, and the handshake never opens again.
-/

namespace Arena0

open Borsh Fallible Actor ExecutionState

variable {κ : Primitives}

/-- The peer that an input confirms: it showed the same conclusion, or it acknowledged the
final frame. -/
def Input.confirms (s : ExecutionState κ) : Input → Option PeerId
  | .receive source frame _ =>
    if authenticates s source frame = true ∧ s.status.isTerminal = true ∧
        s.endConclusionMatches frame = .same then some source else none
  | .settle peer (.protocol digest) .acknowledged => if isFinalFrame s digest then some peer else none
  | _ => none

theorem confirms_of_running {s : ExecutionState κ} (hrunning : s.status.isTerminal = false)
    (input : Input) : input.confirms s = none := by
  unfold Input.confirms
  split
  · simp [hrunning]
  · simp [isFinalFrame, terminalEvidence, hrunning]
  · rfl

inductive Handshake (s : ExecutionState κ) (input : Input) (t : ExecutionState κ) : Prop
  | same (hnone : input.confirms s = none) (hterminal : t.status.isTerminal = s.status.isTerminal)
      (hphase : t.endPhase = s.endPhase)
  | begins (hnone : input.confirms s = none) (hrunning : s.status.isTerminal = false)
      (hterminal : t.status.isTerminal = true) (hphase : t.endPhase = .ending t.others)
  | confirms {peer : PeerId} {unconfirmed : Finset PeerId} (hsome : input.confirms s = some peer)
      (hterminal : s.status.isTerminal = true ∧ t.status.isTerminal = true)
      (hunconfirmed : s.endPhase.unconfirmed = some unconfirmed) (hpeer : peer ∈ unconfirmed)
      (hphase : t.endPhase.unconfirmed = some (unconfirmed.erase peer))
  | expires {unconfirmed : Finset PeerId} (hnone : input.confirms s = none)
      (hterminal : s.status.isTerminal = true ∧ t.status.isTerminal = true)
      (hunconfirmed : s.endPhase = .ending unconfirmed) (hphase : t.endPhase = .ended unconfirmed)

section Committed

variable {s t : ExecutionState κ} {input : Input} {event : Event} {result : DispatchResult κ}
  {pendingId : Option UInt64} {frame : Option ExecFrame}

theorem applyDispatch_endPhase
    (h : s.applyDispatch event result pendingId = .ok (t, frame)) :
    s.status = .active ∧ t.status = .active ∧ t.endPhase = s.endPhase := by
  obtain ⟨-, ⟨-, -, lifecycle, hlocal⟩ | ⟨-, -, indexed, lifecycle, hindexed, hagreed⟩⟩ :=
    applyDispatch_eq_ok h
  · obtain ⟨-, hactive, -, _, _, _, _, -, -, -, -, -, rfl⟩ := applyLocal_eq_ok hlocal
    exact ⟨hactive, rfl, rfl⟩
  · obtain ⟨-, hactive, _, _, _, -, -, -, -, rfl⟩ := applyAgreed_eq_ok hindexed hagreed
    exact ⟨hactive, hactive, rfl⟩

private theorem Handshake.of_dispatch
    (h : s.applyDispatch event result pendingId = .ok (t, frame)) : Handshake s input t := by
  obtain ⟨hs, ht, hphase⟩ := applyDispatch_endPhase h
  refine .same (confirms_of_running ?_ input) ?_ hphase
  · rw [hs]
    rfl
  · rw [hs, ht]

private theorem Handshake.of_certifies {proposal : SharedProposal κ} {certificate : StepCertificate}
    (hrunning : s.status.isTerminal = false) (hopen : s.endPhase = .open)
    (h : Certifies s t proposal certificate) : Handshake s input t := by
  have hnone := confirms_of_running hrunning input
  obtain ⟨next, bytes, version, -, -, -, rfl⟩ := h.next
  cases hterminal : proposal.status.isTerminal with
  | true =>
    refine .begins hnone hrunning hterminal ?_
    exact if_pos ⟨hterminal, hopen⟩
  | false =>
    refine .same hnone (hterminal.trans hrunning.symm) ?_
    refine if_neg fun henters => ?_
    rw [show proposal.status.isTerminal = true from henters.1] at hterminal
    cases hterminal

private theorem Handshake.of_stop {occurrence : AbortOccurrence} (hopen : s.endPhase = .open)
    (h : s.stop occurrence = .ok t) : Handshake s input t := by
  obtain ⟨-, -, -, -, hrunning, -, v, -, rfl⟩ := stop_eq_ok h
  exact .begins (confirms_of_running hrunning input) hrunning rfl (if_pos ⟨rfl, hopen⟩)

private theorem Handshake.of_confirmEnd {peer : PeerId} (hs : s.Recoverable)
    (hsome : input.confirms s = some peer) (h : s.confirmEnd peer = .ok (some t)) :
    Handshake s input t := by
  obtain ⟨unconfirmed, v, phase, hunconfirmed, hpeer, -, rfl, hphase⟩ := confirmEnd_eq_ok h
  have hterminal := (hs.unconfirmed hunconfirmed).1
  refine .confirms hsome ⟨hterminal, hterminal⟩ hunconfirmed hpeer ?_
  rcases hphase with rfl | ⟨-, rfl⟩ <;> rfl

variable {keys : HostKeys} {db : Db κ} {change : Change κ}

theorem Committed.handshake (h : Committed keys db s input t change) (hs : s.Recoverable) :
    Handshake s input t := by
  have hrecord : ∀ {u : ExecutionState κ} {source seq}, s.endPhase = .open →
      u.status = s.status → u.endPhase = s.endPhase → u.recordDirect source seq = .ok t →
        Handshake s input t := by
    intro u source seq hopen hstatus hphase hrecord
    obtain ⟨-, -, -, v, -, rfl⟩ := recordDirect_eq_ok hrecord
    have hrunning : s.status.isTerminal = false := by
      by_contra hterminal
      exact hs.endPhase_ne_open (by simpa using hterminal) hopen
    exact .same (confirms_of_running hrunning input)
      (congrArg ExecutionStatus.isTerminal hstatus) hphase
  have hadd : ∀ {x certified}, s.addStepSignature x = .ok (t, certified) →
      Handshake s input t := by
    intro x certified h
    obtain ⟨proposal, signed, hproposal, hadd, ⟨-, -, v, -, rfl⟩ |
      ⟨-, certificate, done, -, -, hcertify⟩⟩ := addStepSignature_eq_ok h
    · exact .same (confirms_of_running (hs.running hproposal) input) rfl rfl
    · exact .of_certifies (hs.running hproposal) (hs.endPhase_eq_open (hs.running hproposal))
        (Certifies.of_certifyStep hcertify).1
  cases h with
  | activate h =>
    obtain ⟨hstatus, -, v, -, rfl⟩ := activate_eq_ok h
    refine .same rfl ?_ rfl
    rw [hstatus]
    rfl
  | dispatch hinput h => exact .of_dispatch h
  | message h hstaged => exact .of_dispatch h
  | direct hopen hlocal h hrecord' =>
    obtain ⟨hactive, hactive', hphase⟩ := applyDispatch_endPhase h
    exact hrecord hopen (hactive'.trans hactive.symm) hphase hrecord'
  | discard hopen hrecord' => exact hrecord hopen rfl rfl hrecord'
  | drop h =>
    obtain ⟨-, v, -, rfl⟩ := dropOutgoingHead_eq_ok h
    exact .same rfl rfl rfl
  | sign hproposal h => exact hadd h
  | signature hproposal h => exact hadd h
  | certificate h =>
    obtain ⟨p, hp, hcertifies, rfl⟩ := Certifies.exists_of_certifyStep h
    exact .of_certifies (hs.running hp) (hs.endPhase_eq_open (hs.running hp)) hcertifies
  | stop hsender h =>
    exact .of_stop (hs.endPhase_eq_open (stop_eq_ok h).2.2.2.2.1) h
  | abort h =>
    exact .of_stop (hs.endPhase_eq_open (stop_eq_ok h).2.2.2.2.1) h
  | publish hassemble h =>
    obtain ⟨-, status, v, hstatus, -, rfl⟩ := publishReceipt_eq_ok h
    refine .same rfl ?_ rfl
    rcases publishedStatus_eq_ok hstatus with ⟨outcome, hs', rfl⟩ | ⟨cause, hs', rfl⟩
    · rw [hs']
      rfl
    · rw [hs']
      rfl
  | ack houtcome h =>
    obtain ⟨-, -, v, -, rfl⟩ := ackDirect_eq_ok h
    exact .same rfl rfl rfl
  | evidence hauth hterminal hmatch h =>
    exact .of_confirmEnd hs (if_pos ⟨hauth, hterminal, hmatch⟩) h
  | confirmed hfinal h => exact .of_confirmEnd hs (if_pos hfinal) h
  | expire h =>
    obtain ⟨unconfirmed, v, hending, -, rfl⟩ := expireEnd_eq_ok h
    have hterminal := (hs.unconfirmed (by rw [hending]; rfl)).1
    exact .expires rfl ⟨hterminal, hterminal⟩ hending rfl

end Committed

/-! ## Hosts -/

namespace Host

/-- The peers that have confirmed the conclusion of a host. -/
def confirmed (h : Host κ) : List PeerId := h.journal.filterMap fun r => r.input.confirms r.before

theorem confirmed_record (h : Host κ) (input : Input) (next : ExecutionState κ) (db : Db κ) :
    (h.record input next db).confirmed = (input.confirms h.db.state).toList ++ h.confirmed := by
  rw [confirmed, confirmed, record, List.filterMap_cons]
  cases input.confirms h.db.state <;> rfl

/-- A running host has confirmed nobody, and a terminal one waits for all others. -/
structure Handshaken (h : Host κ) : Prop where
  running : h.db.state.status.isTerminal = false → h.confirmed = []
  unconfirmed : ∀ unconfirmed, h.db.state.endPhase.unconfirmed = some unconfirmed →
    unconfirmed = h.db.state.others \ h.confirmed.toFinset

theorem others_eq {s t : ExecutionState κ} (h : SameExecution s t) : t.others = s.others := by
  rw [others, others, h.binding, h.producer]

variable {keys : HostKeys} {h : Host κ} {input : Input}

theorem Transition.handshaken {h' : Host κ} (hs : h.Sound keys) (hh : h.Handshaken)
    (ht : Transition keys h input h') : h'.Handshaken := by
  cases ht with
  | quiet live hlive => exact ⟨hh.running, hh.unconfirmed⟩
  | @commit next change db hlive hcommitted hversion hwritten =>
    have hstate : (h.record input next db).db.state = next := hwritten.state
    have hothers := others_eq hcommitted.sameExecution
    refine ⟨?_, ?_⟩ <;> rw [hstate, confirmed_record]
    · intro hrunning
      cases hcommitted.handshake hs.recoverable with
      | same hnone hterminal hphase =>
        rw [hnone]
        exact hh.running (hterminal ▸ hrunning)
      | begins hnone _ hterminal hphase =>
        rw [hrunning] at hterminal
        cases hterminal
      | confirms hsome hterminal | expires hnone hterminal =>
        rw [hrunning] at hterminal
        cases hterminal.2
    · intro unconfirmed hunconfirmed
      rw [hothers]
      cases hcommitted.handshake hs.recoverable with
      | same hnone hterminal hphase =>
        rw [hnone]
        rw [hphase] at hunconfirmed
        exact hh.unconfirmed unconfirmed hunconfirmed
      | begins hnone hrunning hterminal hphase =>
        rw [hphase] at hunconfirmed
        rw [hnone, hh.running hrunning, ← Option.some.inj hunconfirmed, hothers]
        simp
      | confirms hsome hterminal hbefore hpeer hphase =>
        rw [hphase] at hunconfirmed
        rw [hsome, ← Option.some.inj hunconfirmed, hh.unconfirmed _ hbefore]
        ext peer
        simp only [Finset.mem_erase, Finset.mem_sdiff, List.mem_toFinset, Option.toList_some,
          List.singleton_append, List.mem_cons]
        tauto
      | expires hnone hterminal hbefore hphase =>
        rw [hphase] at hunconfirmed
        rw [hnone]
        refine hh.unconfirmed unconfirmed ?_
        rw [hbefore]
        exact hunconfirmed

theorem Transition.unconfirmed {h' : Host κ} {unconfirmed : Finset PeerId} (hs : h.Sound keys)
    (hbefore : h.db.state.endPhase.unconfirmed = some unconfirmed)
    (ht : Transition keys h input h') :
    ∃ unconfirmed', h'.db.state.endPhase.unconfirmed = some unconfirmed' ∧
      unconfirmed' ⊆ unconfirmed := by
  cases ht with
  | quiet live hlive => exact ⟨unconfirmed, hbefore, Finset.Subset.refl _⟩
  | @commit next change db hlive hcommitted hversion hwritten =>
    have hstate : (h.record input next db).db.state = next := hwritten.state
    rw [hstate]
    cases hcommitted.handshake hs.recoverable with
    | same hnone hterminal hphase =>
      exact ⟨unconfirmed, by rw [hphase, hbefore], Finset.Subset.refl _⟩
    | begins hnone hrunning hterminal hphase =>
      rw [(hs.recoverable.unconfirmed hbefore).1] at hrunning
      cases hrunning
    | confirms hsome hterminal hbefore' hpeer hphase =>
      obtain rfl := Option.some.inj (hbefore.symm.trans hbefore')
      exact ⟨_, hphase, Finset.erase_subset _ _⟩
    | expires hnone hterminal hbefore' hphase =>
      rw [hbefore'] at hbefore
      exact ⟨unconfirmed, by rw [hphase]; exact hbefore, Finset.Subset.refl _⟩

private theorem perform_confirmPeer {s : ExecutionState κ} {nowMs : UInt64} {peer : PeerId}
    (hstate : h.db.state = s)
    (hanswer : (h.perform nowMs input s ((confirmPeer s peer).map fun _ => none)).2 ≠ none) :
    ∃ unconfirmed, (h.perform nowMs input s
      ((confirmPeer s peer).map fun _ => none)).1.db.state.endPhase.unconfirmed = some unconfirmed ∧
        peer ∉ unconfirmed := by
  unfold confirmPeer at hanswer ⊢
  cases hconfirm : s.confirmEnd peer with
  | error error =>
    rw [hconfirm] at hanswer
    exact absurd rfl hanswer
  | ok result =>
    rw [hconfirm] at hanswer
    cases result with
    | none =>
      obtain ⟨unconfirmed, hunconfirmed, hpeer⟩ := confirmEnd_eq_none hconfirm
      refine ⟨unconfirmed, ?_, hpeer⟩
      simp only [Decision.map, perform, hstate]
      exact hunconfirmed
    | some next =>
      obtain ⟨unconfirmed, v, phase, -, -, -, rfl, hphase⟩ := confirmEnd_eq_ok hconfirm
      simp only [Decision.map, perform] at hanswer ⊢
      split at hanswer
      · rename_i db hpersist
        refine ⟨unconfirmed.erase peer, ?_, Finset.notMem_erase _ _⟩
        dsimp only
        rw [(Db.persistInTransaction_eq_ok hpersist).2.state]
        rcases hphase with rfl | ⟨-, rfl⟩ <;> rfl
      · exact absurd rfl hanswer

theorem handle_confirms {nowMs : UInt64} {peer : PeerId} (hlive : h.live = some h.db.state)
    (hconfirms : input.confirms h.db.state = some peer)
    (hanswer : (h.handle keys nowMs input).2 ≠ none) :
    ∃ unconfirmed, (h.handle keys nowMs input).1.db.state.endPhase.unconfirmed = some unconfirmed ∧
      peer ∉ unconfirmed := by
  unfold Input.confirms at hconfirms
  split at hconfirms
  · rename_i source frame reply
    split at hconfirms
    · rename_i hsame
      obtain rfl := Option.some.inj hconfirms
      have haccept : acceptFrame h.db.state source frame reply =
          (confirmPeer h.db.state source).map fun _ => none := by
        simp [acceptFrame, hsame.1, hsame.2.1, acceptTerminal, hsame.2.2]
      have hhandle : h.handle keys nowMs (.receive source frame reply) = h.perform nowMs
          (.receive source frame reply) h.db.state
            ((confirmPeer h.db.state source).map fun _ => none) := by
        simp only [Host.handle, hlive, Actor.handle, haccept]
      rw [hhandle] at hanswer ⊢
      exact perform_confirmPeer rfl hanswer
    · cases hconfirms
  · rename_i peer' digest
    split at hconfirms
    · rename_i hfinal
      obtain rfl := Option.some.inj hconfirms
      have hhandle : h.handle keys nowMs (.settle peer' (.protocol digest) .acknowledged) =
          h.perform nowMs (.settle peer' (.protocol digest) .acknowledged) h.db.state
            ((confirmPeer h.db.state peer').map fun _ => none) := by
        simp only [Host.handle, hlive, Actor.handle, settleSend, hfinal, ↓reduceIte]
      rw [hhandle] at hanswer ⊢
      exact perform_confirmPeer rfl hanswer
    · cases hconfirms
  · cases hconfirms

end Host

/-! ## What the router answers -/

theorem confirmEnd_of_not_mem {s : ExecutionState κ} {peer : PeerId} {unconfirmed : Finset PeerId}
    (hne : peer ≠ s.producer) (hpart : s.binding.isParticipant peer = true)
    (hphase : s.endPhase = .ending unconfirmed ∨ s.endPhase = .ended unconfirmed)
    (hmem : peer ∉ unconfirmed) : s.confirmEnd peer = .ok none := by
  have hremove : confirmedPhase s.endPhase peer = .ok none := by
    rcases hphase with hphase | hphase <;> simp [hphase, confirmedPhase, removeUnconfirmed, hmem]
  simp only [confirmEnd, hremove, hne, hpart, ne_eq, not_false_eq_true, and_self, ensure]
  rfl

/-- The router answers for an execution without a live actor as the actor would, and puts off only
frames of a peer that has not confirmed. -/
theorem router_answers_as_actor {keys : HostKeys} {h : Host κ} {source : PeerId} {frame : ExecFrame}
    {result : Option ExecDeliveryRejection} (hr : h.Reachable keys) (hsource : source ≠ keys.peerId)
    (hroute : routeExec h.db.state source frame = some result) :
    (∀ reply, acceptFrame h.db.state source frame reply = .done result) ∨
      result = some .notYet ∧ ∃ unconfirmed, h.db.state.endPhase = .ended unconfirmed ∧
        source ∈ unconfirmed := by
  have hs := hr.sound
  rw [← hs.producer] at hsource
  unfold routeExec at hroute
  split at hroute
  · cases hroute
  rename_i hended
  have hterminal : h.db.state.status.isTerminal = true := by
    by_contra hne
    exact hended (hs.recoverable.endPhase_eq_open (by simpa using hne))
  split at hroute
  · rename_i hauth
    cases hroute
    exact .inl fun reply => if_pos hauth
  rename_i hauth
  have hpart : h.db.state.binding.isParticipant source = true := by
    simp only [authenticates, Bool.and_eq_false_iff, not_or] at hauth
    simpa using hauth.1
  have hactor : ∀ reply, acceptFrame h.db.state source frame reply =
      acceptTerminal h.db.state source frame := by
    intro reply
    unfold acceptFrame
    rw [if_neg hauth, if_pos hterminal]
  split at hroute
  · rename_i hdifferent
    cases hroute
    exact .inl fun reply => by rw [hactor, acceptTerminal, hdifferent]
  rename_i hmatch
  have hdone : ∀ unconfirmed, (h.db.state.endPhase = .ending unconfirmed ∨
      h.db.state.endPhase = .ended unconfirmed) → source ∉ unconfirmed → ∀ reply,
      acceptFrame h.db.state source frame reply = .done none := by
    intro unconfirmed hphase hmem reply
    rw [hactor, acceptTerminal]
    cases heq : h.db.state.endConclusionMatches frame with
    | same => simp [confirmPeer, confirmEnd_of_not_mem hsource hpart hphase hmem, Decision.map]
    | different => exact absurd heq hmatch
    | notTerminalEvidence => rfl
  split at hroute
  · cases hroute
  · rename_i unconfirmed hphase
    split at hroute
    · rename_i hmem
      exact .inr ⟨(Option.some.inj hroute).symm, unconfirmed, hphase, hmem⟩
    · rename_i hmem
      cases hroute
      exact .inl (hdone unconfirmed (.inr hphase) hmem)
  · rename_i unconfirmed hphase
    split at hroute
    · cases hroute
    · rename_i hmem
      cases hroute
      exact .inl (hdone unconfirmed (.inl hphase) hmem)

/-- The session ended at the first participant, and the second one has confirmed it. -/
def Sample.confirmedHost : Host referencePrimitives :=
  endedHost.run (keys 1) (endedHost.db.state.terminalEvidence.toList.map fun frame =>
    (0, .receive (peer 2) frame (ending finalState)))

open Sample in
theorem router_answers_as_actor_confirmed :
    acceptFrame confirmedHost.db.state (peer 2) (.direct 1 [7] none)
      (accepted []) = .done none := by
  have hr : confirmedHost.Reachable (keys 1) :=
    ⟨_, _, created_one, List.foldl_append.symm⟩
  have hrun : routeExec confirmedHost.db.state (peer 2) (.direct 1 [7] none) =
      some none := by decide +kernel
  rcases router_answers_as_actor hr (by decide) hrun with hdone | ⟨hresult, -⟩
  · exact hdone _
  · cases hresult

end Arena0
