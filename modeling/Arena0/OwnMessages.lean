import Arena0.Turns
import Arena0.ReferenceHost

/-!
# The own messages of a participant

A broadcast is queued with the dispatch that emits it, authored from the head of
the queue and, once certified, an entry of the trace.  Over a whole run the
queue is first in, first out: the payloads broadcast so far are those already
settled, in order, then the queue, then what the staged dispatch broadcast.  A
settled payload is an own entry of the certified trace or was dropped when the
program rejected it.
-/

namespace Arena0

open Borsh Fallible Actor ExecutionState

variable {κ : Primitives}

def Turn.broadcasts (turn : Turn κ) : List Bytes :=
  match turn.change with
  | .dispatch _ effects _ => Arena0.broadcasts effects
  | _ => []

/-- The head of the queue when a turn authors it and the dispatch is rejected. -/
def Turn.rejects (turn : Turn κ) : Option Bytes :=
  match turn.input, turn.before.outgoing with
  | .author reply, head :: _ =>
    match dispatchEvent turn.before (.messageReceived turn.before.producer head) .ownMessage
        reply with
    | .done (.rejected _) => some head
    | _ => none
  | _, _ => none

def StepEvent.ownData (producer : PeerId) : StepEvent → Option Bytes
  | .message source data => if source = producer then some data else none
  | .sessionStarted _ => none

def ownMessages (producer : PeerId) (entries : List TraceEntry) : List Bytes :=
  entries.filterMap fun entry => entry.event.ownData producer

/-- What became of a broadcast that left the queue. -/
inductive Fate
  | agreed
  | rejected
  deriving DecidableEq

def payloadsOf (fate : Fate) (settled : List (Bytes × Fate)) : List Bytes :=
  (settled.filter (·.2 = fate)).map (·.1)

theorem payloadsOf_append (fate : Fate) (settled : List (Bytes × Fate)) (data : Bytes)
    (other : Fate) : payloadsOf fate (settled ++ [(data, other)]) =
      payloadsOf fate settled ++ if other = fate then [data] else [] := by
  rw [payloadsOf, payloadsOf, List.filter_append, List.map_append, List.filter_singleton]
  split <;> simp_all

/-! ## One turn -/

theorem Host.Takes.rejects {keys : HostKeys} {db db' : Db κ} {turn : Turn κ}
    (h : Takes keys db turn db') {head : Bytes} (hrejects : turn.rejects = some head) :
    turn.change = .state ∧ turn.before.outgoing = head :: turn.next.outgoing := by
  obtain ⟨answer, hdecide⟩ := h.decided
  rw [← h.before] at hdecide
  unfold Turn.rejects at hrejects
  split at hrejects
  · rename_i reply first rest hinput houtgoing
    split at hrejects
    · rename_i reason hdispatch
      cases hrejects
      rw [hinput] at hdecide
      obtain ⟨_, hauthor⟩ := map_eq_commit hdecide
      unfold authorNextMessage at hauthor
      rw [houtgoing, List.headD_cons, hdispatch] at hauthor
      split at hauthor
      · dsimp only at hauthor
        split at hauthor
        · rename_i hdrop
          simp only [dropOutgoingHead, bind_eq_ok, ensure_eq_ok, bumpVersion_eq_ok] at hdrop
          obtain ⟨_, -, _, -, v, -, rfl⟩ := hdrop
          simp only [Decision.commit.injEq] at hauthor
          obtain ⟨hnext, hchange, -⟩ := hauthor
          exact ⟨hchange.symm, by rw [← hnext, houtgoing]; rfl⟩
        · cases hauthor
      · cases hauthor
    · cases hrejects
  · cases hrejects

theorem Host.Takes.dropped {keys : HostKeys} {db db' : Db κ} {turn : Turn κ}
    (h : Takes keys db turn db') {reply : GuestReply} {head : Bytes} {rest : List Bytes}
    (hinput : turn.input = .author reply) (houtgoing : turn.before.outgoing = head :: rest)
    (hchange : turn.change = .state) : turn.rejects = some head := by
  obtain ⟨answer, hdecide⟩ := h.decided
  rw [← h.before, hinput] at hdecide
  obtain ⟨_, hauthor⟩ := map_eq_commit hdecide
  obtain ⟨-, -, -, reason, hrejected⟩ | ⟨_, _, -, hdispatch, -⟩ := authorNextMessage_commit hauthor
  · rw [houtgoing, List.headD_cons] at hrejected
    simp only [Turn.rejects, hinput, houtgoing, hrejected]
  · cases hchange.symm.trans hdispatch

/-- The queue an agreed dispatch stages: its own message is taken from the head, its broadcasts
are appended. -/
theorem ExecutionState.StagedBy.queue {s : ExecutionState κ} {event : Event}
    {result : DispatchResult κ} {proposal : SharedProposal κ} (h : StagedBy s event result proposal) :
    (proposal.entry.event.ownData s.producer).toList ++ proposal.outgoing =
      s.outgoing ++ broadcasts result.effects := by
  obtain ⟨rest, hpop, hqueue⟩ := h.outgoing_eq
  rw [appendBroadcasts_eq_append hqueue, ← List.append_assoc]
  congr 1
  have hevent := h.event_eq
  cases event with
  | sessionStarted ensemble =>
    rw [← Option.some.inj hevent]
    cases hpop
    rfl
  | messageReceived source msg =>
    rw [← Option.some.inj hevent]
    simp only [popOwnMessage] at hpop
    split at hpop
    · rename_i hown
      split at hpop
      · rename_i head tail houtgoing
        simp only [bind_eq_ok, ensure_eq_ok, pure_eq_ok] at hpop
        obtain ⟨_, rfl, rfl⟩ := hpop
        simp [StepEvent.ownData, hown, houtgoing]
      · cases hpop
    · rename_i hother
      cases hpop
      simp [StepEvent.ownData, hother]
  | _ => cases hevent

/-! ## The queue over a run -/

/-- The broadcasts of the turns so far: those that left the queue, those in it, and those of the
staged dispatch or of the dispatch a stop discarded. -/
structure MessagesTracked (turns : List (Turn κ)) (s : ExecutionState κ)
    (entries : List TraceEntry) (settled : List (Bytes × Fate)) (pending : List Bytes) : Prop where
  payloads : turns.flatMap Turn.broadcasts = settled.map (·.1) ++ s.outgoing ++ pending
  agreed : ownMessages s.producer entries = payloadsOf .agreed settled
  rejected : turns.filterMap Turn.rejects = payloadsOf .rejected settled
  staged : ∀ proposal ∈ s.proposal,
    (proposal.entry.event.ownData s.producer).toList ++ proposal.outgoing = s.outgoing ++ pending
  running : s.proposal = none → s.status.isTerminal = false → pending = []

section

variable {turns : List (Turn κ)} {turn : Turn κ} {entries : List TraceEntry}
  {settled : List (Bytes × Fate)} {pending : List Bytes}

private theorem MessagesTracked.keep (h : MessagesTracked turns turn.before entries settled pending)
    (hproducer : turn.next.producer = turn.before.producer) (hbroadcasts : turn.broadcasts = [])
    (hrejects : turn.rejects = none) (houtgoing : turn.next.outgoing = turn.before.outgoing)
    (hstaged : ∀ proposal ∈ turn.next.proposal,
      ∃ before ∈ turn.before.proposal,
        proposal.entry = before.entry ∧ proposal.outgoing = before.outgoing)
    (hrunning : turn.next.proposal = none → turn.next.status.isTerminal = false →
      turn.before.proposal = none ∧ turn.before.status.isTerminal = false) :
    MessagesTracked (turns ++ [turn]) turn.next entries settled pending where
  payloads := by simp [h.payloads, hbroadcasts, houtgoing]
  agreed := by rw [hproducer, h.agreed]
  rejected := by simp [h.rejected, hrejects]
  staged := by
    intro proposal hproposal
    obtain ⟨before, hbefore, hentry, hqueue⟩ := hstaged proposal hproposal
    rw [hentry, hqueue, hproducer, houtgoing]
    exact h.staged before hbefore
  running := fun hnone hopen => h.running (hrunning hnone hopen).1 (hrunning hnone hopen).2

theorem MessagesTracked.certify (h : MessagesTracked turns turn.before entries settled pending)
    {proposal signed : SharedProposal κ} {certificate : StepCertificate}
    (hproducer : turn.next.producer = turn.before.producer) (hbroadcasts : turn.broadcasts = [])
    (hrejects : turn.rejects = none) (hproposal : turn.before.proposal = some proposal)
    (hsigned : signed = { proposal with signatures := signed.signatures })
    (hcertifies : Certifies turn.before turn.next signed certificate) :
    ∃ settled, MessagesTracked (turns ++ [turn]) turn.next
      (entries ++ [(signed.under certificate).entry]) settled [] := by
  obtain ⟨-, hqueue, -, hnone, -⟩ := hcertifies.installs
  have hstaged := h.staged proposal hproposal
  have houtgoing : turn.next.outgoing = proposal.outgoing := by rw [hqueue, hsigned]
  have hentry : (signed.under certificate).entry.event = proposal.entry.event := by
    rw [hsigned]
    rfl
  have hown : ownMessages turn.next.producer (entries ++ [(signed.under certificate).entry]) =
      payloadsOf .agreed settled ++
        (proposal.entry.event.ownData turn.before.producer).toList := by
    rw [ownMessages, List.filterMap_append, ← ownMessages, hproducer, h.agreed]
    congr 1
    rw [List.filterMap_cons, hentry]
    cases proposal.entry.event.ownData turn.before.producer <;> rfl
  have hpayloads : (turns ++ [turn]).flatMap Turn.broadcasts = settled.map (·.1) ++
      ((proposal.entry.event.ownData turn.before.producer).toList ++ turn.next.outgoing) := by
    rw [houtgoing, hstaged, List.flatMap_append, h.payloads]
    simp [hbroadcasts]
  cases hdata : proposal.entry.event.ownData turn.before.producer with
  | none =>
    rw [hdata] at hown hpayloads
    refine ⟨settled, by simpa using hpayloads, by simpa using hown, ?_, by simp [hnone], fun _ _ => rfl⟩
    simp [h.rejected, hrejects]
  | some data =>
    rw [hdata] at hown hpayloads
    refine ⟨settled ++ [(data, .agreed)], by simpa using hpayloads, ?_, ?_, by simp [hnone],
      fun _ _ => rfl⟩
    · rw [hown, payloadsOf_append]
      rfl
    · rw [payloadsOf_append, List.filterMap_append, h.rejected]
      simp [hrejects]

/-- Every turn keeps track of the broadcasts. -/
private theorem MessagesTracked.step {keys : HostKeys} {db db' : Db κ} {entries' : List TraceEntry}
    (h : MessagesTracked turns turn.before entries settled pending)
    (htakes : Host.Takes keys db turn db')
    (hextends : Db.Extends turn.before turn.next turn.change entries entries') :
    ∃ settled pending, MessagesTracked (turns ++ [turn]) turn.next entries' settled pending := by
  obtain ⟨answer, hdecide⟩ := htakes.decided
  rw [← htakes.before] at hdecide
  have hproducer : turn.next.producer = turn.before.producer :=
    (handle_commit hdecide).sameExecution.producer
  have hmove := htakes.move
  -- only a dropped head is a rejected one
  have hrejects : (turn.change = .state → turn.next.outgoing = turn.before.outgoing) →
      turn.rejects = none := by
    intro hkeeps
    rw [Option.eq_none_iff_forall_ne_some]
    intro head hhead
    obtain ⟨hchange, hqueue⟩ := htakes.rejects hhead
    rw [hkeeps hchange] at hqueue
    exact List.cons_ne_self _ _ hqueue.symm
  have hbroadcasts : ∀ change, turn.change = change → (∀ event effects timerId,
      change ≠ .dispatch event effects timerId) → turn.broadcasts = [] := by
    rintro change rfl hother
    unfold Turn.broadcasts
    split
    · rename_i hdispatch
      exact absurd hdispatch (hother _ _ _)
    · rfl
  -- the trace grows by certifications only
  have hsame : (∀ proposal, turn.change ≠ .stepSignature (some proposal)) → entries' = entries := by
    intro hother
    cases hextends with
    | same => rfl
    | certified _ hchange => exact absurd hchange (hother _)
  generalize hchange : turn.change = change at hmove
  rw [hchange] at hsame
  cases hmove with
  | @installed event result _ _ _ _ hactive hfree _ houtgoing _ hproposal hstatus _ =>
    obtain rfl := hsame (by simp)
    have hnil := h.running hfree (by rw [hactive]; rfl)
    have hemits : turn.broadcasts = broadcasts result.effects := by rw [Turn.broadcasts, hchange]
    refine ⟨settled, [], ?_, by rw [hproducer, h.agreed], ?_, by simp [hproposal], fun _ _ => rfl⟩
    · simp [h.payloads, hnil, hemits, houtgoing]
    · simp [h.rejected, hrejects (by simp [hchange])]
  | @staged event result _ _ proposal _ _ _ _ hactive hfree _ hstaged _ ht =>
    obtain rfl := hsame (by simp)
    have hnil := h.running hfree (by rw [hactive]; rfl)
    have hemits : turn.broadcasts = broadcasts result.effects := by rw [Turn.broadcasts, hchange]
    refine ⟨settled, broadcasts result.effects, ?_, by rw [hproducer, h.agreed], ?_, ?_, ?_⟩
    · simp [h.payloads, hnil, hemits, ht]
    · simp [h.rejected, hrejects (by simp [hchange])]
    · rw [hproducer, ht]
      rintro _ ⟨⟩
      exact hstaged.queue
    · rw [ht]
      intro hnone
      cases hnone
  | signed hproposal hsigned ht =>
    obtain rfl := hsame (by simp)
    refine ⟨settled, pending, h.keep hproducer (hbroadcasts _ hchange (by simp))
      (hrejects (by simp [hchange])) (by rw [ht]) ?_ ?_⟩
    · rw [ht]
      rintro _ ⟨⟩
      exact ⟨_, hproposal, by rw [hsigned], by rw [hsigned]⟩
    · rw [ht]
      intro hnone
      cases hnone
  | @certified _ signed certificate hproposal hsigned hcertifies =>
    have hentries : entries' = entries ++ [(signed.under certificate).entry] := by
      cases hextends with
      | same _ hother => exact absurd hchange (hother _)
      | certified _ hcertified =>
        rw [hchange] at hcertified
        simp only [Change.stepSignature.injEq, Option.some.injEq] at hcertified
        rw [hcertified]
    rw [hentries]
    obtain ⟨settled, htracked⟩ := h.certify hproducer (hbroadcasts _ hchange (by simp))
      (hrejects (by simp [hchange])) hproposal hsigned hcertifies
    exact ⟨settled, [], htracked⟩
  | @dropped reply head rest version hinput hactive hfree houtgoing ht =>
    obtain rfl := hsame (by simp)
    have hnil := h.running hfree (by rw [hactive]; rfl)
    have hhead := htakes.dropped hinput houtgoing hchange
    refine ⟨settled ++ [(head, .rejected)], [], ?_, ?_, ?_, ?_, fun _ _ => rfl⟩
    · simp [h.payloads, hnil, hbroadcasts _ hchange (by simp), houtgoing, ht]
    · rw [payloadsOf_append, hproducer, h.agreed]
      simp
    · rw [payloadsOf_append, List.filterMap_append, h.rejected]
      simp [hhead]
    · rw [ht]
      simp [hfree]
  | stopped hrunning ht =>
    obtain rfl := hsame (by simp)
    have houtgoing : turn.next.outgoing = turn.before.outgoing := by rw [ht]; rfl
    refine ⟨settled, pending, h.keep hproducer (hbroadcasts _ hchange (by simp))
      (hrejects fun _ => houtgoing) houtgoing ?_ ?_⟩
    · rw [ht]
      rintro _ ⟨⟩
    · rw [ht]
      intro _ hopen
      cases hopen
  | kept hkind hview _ hterminal _ =>
    have hother : (∀ event effects timerId, change ≠ .dispatch event effects timerId) ∧
        ∀ proposal, change ≠ .stepSignature (some proposal) := by
      rcases hkind with rfl | ⟨_, rfl⟩ <;> simp
    obtain rfl := hsame hother.2
    have hproposal : turn.next.proposal = turn.before.proposal := hview.proposal
    refine ⟨settled, pending, h.keep hproducer (hbroadcasts _ hchange hother.1)
      (hrejects fun _ => hview.outgoing) hview.outgoing ?_ ?_⟩
    · rw [hproposal]
      exact fun proposal hp => ⟨proposal, hp, rfl, rfl⟩
    · rw [hproposal, hterminal]
      exact fun hnone hopen => ⟨hnone, hopen⟩

end

theorem Host.Takes.ledger {keys : HostKeys} {db db' : Db κ} {turn : Turn κ}
    (h : Takes keys db turn db') {entries : List TraceEntry} (hledger : db.Ledger entries) :
    ∃ entries', db'.Ledger entries' ∧
      Db.Extends turn.before turn.next turn.change entries entries' := by
  obtain ⟨host, hsound, rfl⟩ := h.sound
  obtain ⟨answer, hdecide⟩ := h.decided
  rw [h.before]
  exact hledger.committed hsound.recoverable (handle_commit hdecide)
    (Db.persistInTransaction_eq_ok h.persisted).2

/-- The broadcasts along every run of a created execution. -/
theorem Host.Created.messages_tracked {keys : HostKeys} {db : Db κ} (hcreated : Created keys db)
    (inputs : List (UInt64 × Input)) :
    ∃ entries settled pending, ((initial db).run keys inputs).db.Ledger entries ∧
      MessagesTracked ((initial db).turns keys inputs) ((initial db).run keys inputs).db.state
        entries settled pending := by
  refine (Sound.turns_split (I := fun rows turns => ∃ entries settled pending,
    rows.Ledger entries ∧ MessagesTracked turns rows.state entries settled pending)
    ?_ hcreated.sound ?_ inputs).1
  · rintro rows turns turn rows' ⟨entries, settled, pending, hledger, htracked⟩ htakes
    obtain ⟨entries', hledger', hextends⟩ := htakes.ledger hledger
    rw [← htakes.before] at htracked
    obtain ⟨settled', pending', hnext⟩ := htracked.step htakes hextends
    refine ⟨entries', settled', pending', hledger', ?_⟩
    rw [htakes.state]
    exact hnext
  · obtain ⟨entries, hledger⟩ := hcreated.sound.ledger
    obtain ⟨hnone, -, -, -, houtgoing, -, -, hrows⟩ := hcreated.fresh
    have hentries := hledger.rows
    rw [show (initial db).db = db from rfl, hrows, List.forall₂_nil_left_iff] at hentries
    refine ⟨entries, [], [], hledger, ?_⟩
    exact {
      payloads := by simp [initial, houtgoing]
      agreed := by rw [hentries]; rfl
      rejected := rfl
      staged := by simp [initial, hnone]
      running := fun _ _ => rfl }

theorem payloadsOf_sublist (fate : Fate) (settled : List (Bytes × Fate)) :
    (payloadsOf fate settled).Sublist (settled.map (·.1)) :=
  List.filter_sublist.map _

/-- Own messages are agreed in broadcast order, each broadcast at most once.  Every broadcast of a
committed dispatch is an own entry of the certified trace, was dropped when the program rejected
it, is queued, or belongs to a dispatch that is staged or was discarded by a stop; an input that
commits nothing changes nothing. -/
theorem own_messages_agreed_in_order {keys : HostKeys} {db : Db κ} (hcreated : Host.Created keys db)
    (inputs : List (UInt64 × Input)) :
    let host := (Host.initial db).run keys inputs
    let turns := (Host.initial db).turns keys inputs
    let own := db.state.producer
    ∃ entries settled pending, host.db.loadAgreedTrace host.db.state = .ok entries ∧
      turns.flatMap Turn.broadcasts = settled.map (·.1) ++ host.db.state.outgoing ++ pending ∧
      ownMessages own entries = payloadsOf .agreed settled ∧
      turns.filterMap Turn.rejects = payloadsOf .rejected settled ∧
      (ownMessages own entries).Sublist (turns.flatMap Turn.broadcasts) ∧
      (∀ proposal ∈ host.db.state.proposal,
        (proposal.entry.event.ownData own).toList ++ proposal.outgoing =
          host.db.state.outgoing ++ pending) ∧
      (host.db.state.proposal = none → host.db.state.status.isTerminal = false → pending = []) ∧
      ∀ nowMs input, host.turn keys nowMs input = none →
        (host.handle keys nowMs input).1.db = host.db := by
  intro host turns own
  obtain ⟨entries, settled, pending, hledger, htracked⟩ := hcreated.messages_tracked inputs
  have hown : host.db.state.producer = own := by
    have hsound := hcreated.sound.run inputs
    exact hsound.producer.trans hcreated.sound.producer.symm
  have hagreed : ownMessages own entries = payloadsOf .agreed settled := by
    rw [← hown, htracked.agreed]
  refine ⟨entries, settled, pending, hledger.loadAgreedTrace_eq_ok, htracked.payloads, hagreed,
    htracked.rejected, ?_, ?_, htracked.running, ?_⟩
  · rw [hagreed, htracked.payloads, List.append_assoc]
    exact (payloadsOf_sublist .agreed settled).trans (List.sublist_append_left _ _)
  · rw [← hown]
    exact htracked.staged
  · intro nowMs input hturn
    rcases (hcreated.sound.run inputs).takes_or_idle nowMs input with ⟨-, hdb⟩ | ⟨turn, hsome, -⟩
    · exact hdb
    · cases hturn.symm.trans hsome

namespace Sample

/-- The session start broadcasts one payload twice; the first is rejected when it is authored and
the second is staged. -/
def repeated : List (UInt64 × Input) :=
  [(0, .activate), (0, .start (accepted [.broadcast [7], .broadcast [7]])), (0, .sign),
    (0, .receive (peer 2) (.stepSignature startCommitment (referenceBytes 48 1138100667352102205))
      (accepted [])),
    (0, .author (.rejected none)), (0, .author (accepted [.broadcast [8]]))]

end Sample

open Sample in
theorem own_messages_agreed_in_order_repeated :
    ((Host.initial (db 1)).turns (keys 1) repeated).map
        (fun turn => (turn.broadcasts, turn.rejects, turn.next.outgoing)) =
      [([], none, []), ([[7], [7]], none, []), ([], none, []), ([], none, [[7], [7]]),
        ([], some [7], [[7]]), ([[8]], none, [[7]])] ∧
    ∃ entries settled pending,
      ((Host.initial (db 1)).turns (keys 1) repeated).flatMap Turn.broadcasts =
        settled.map (·.1) ++
          ((Host.initial (db 1)).run (keys 1) repeated).db.state.outgoing ++
          pending ∧
      ownMessages (db 1).state.producer entries = payloadsOf .agreed settled := by
  obtain ⟨entries, settled, pending, -, hpayloads, hagreed, -⟩ :=
    own_messages_agreed_in_order created_one repeated
  exact ⟨by decide +kernel, entries, settled, pending, hpayloads, hagreed⟩

end Arena0
