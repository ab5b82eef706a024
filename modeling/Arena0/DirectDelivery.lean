import Arena0.Acknowledgement
import Arena0.StepAgreement

/-!
# Delivery of direct messages

Direct messages travel beside the agreed trace.  The sender numbers them for each peer,
keeps them queued until they are answered and sends the head of the queue only; the
receiver applies the number after the last applied one and nothing else.  Over a
transport that loses, duplicates, delays and reorders frames, and with crashes and
restarts at both ends, the messages applied are a prefix of the messages queued.
-/

namespace Arena0

open Borsh Fallible Actor ExecutionState

variable {κ : Primitives}

/-! ## Numbered messages -/

/-- The messages of a list carry the numbers 1, 2, 3 and so on. -/
def Numbered {α : Type} (messages : List (UInt64 × α)) : Prop :=
  messages.map (·.1.toNat) = List.range' 1 messages.length

namespace Numbered

variable {α : Type} {messages news seen : List (UInt64 × α)} {message : UInt64 × α}

theorem append (h : Numbered messages)
    (hnews : news.map (·.1.toNat) = List.range' (messages.length + 1) news.length) :
    Numbered (messages ++ news) := by
  have hrange := List.range'_append_1 (s := 1) (m := messages.length) (n := news.length)
  unfold Numbered at h ⊢
  rw [List.map_append, List.length_append, h, hnews, ← hrange, Nat.add_comm 1]

theorem toNat_getElem (h : Numbered messages) {k : ℕ} (hk : k < messages.length) :
    messages[k].1.toNat = k + 1 := by
  have hget := congrArg (·[k]?) h
  simp only [List.getElem?_map, List.getElem?_eq_getElem hk, Option.map_some,
    List.getElem?_range' hk, Option.some.injEq] at hget
  omega

/-- A message stands at the place of its number. -/
theorem getElem?_of_mem (h : Numbered messages) (hmem : message ∈ messages) :
    messages[message.1.toNat - 1]? = some message := by
  obtain ⟨k, hk, rfl⟩ := List.getElem_of_mem hmem
  rw [h.toNat_getElem hk, Nat.add_sub_cancel]
  exact List.getElem?_eq_getElem hk

theorem toNat_le (h : Numbered messages) (hmem : message ∈ messages) :
    1 ≤ message.1.toNat ∧ message.1.toNat ≤ messages.length := by
  obtain ⟨k, hk, rfl⟩ := List.getElem_of_mem hmem
  rw [h.toNat_getElem hk]
  omega

theorem mem_of_le (h : Numbered messages) (hseen : Numbered seen) (hsub : seen ⊆ messages)
    (hmem : message ∈ messages) (hle : message.1.toNat ≤ seen.length) : message ∈ seen := by
  have hpos := (h.toNat_le hmem).1
  have hk : message.1.toNat - 1 < seen.length := by omega
  have hget := h.getElem?_of_mem (hsub (List.getElem_mem hk))
  rw [hseen.toNat_getElem hk, Nat.add_sub_cancel, h.getElem?_of_mem hmem] at hget
  exact Option.some.inj hget ▸ List.getElem_mem hk

/-- Numbered messages among numbered ones are the first of them. -/
theorem prefix_of_subset (h : Numbered messages) (hseen : Numbered seen) (hsub : seen ⊆ messages) :
    seen <+: messages := by
  rw [List.prefix_iff_getElem?]
  intro k hk
  have hget := h.getElem?_of_mem (hsub (List.getElem_mem hk))
  rwa [hseen.toNat_getElem hk, Nat.add_sub_cancel] at hget

end Numbered

/-! ## What a committed decision does to a lane -/

/-- Messages were pushed at the end of the queue under the numbers after the last queued one. -/
structure DirectLane.Pushed (lane lane' : DirectLane) (news : List DirectEntry) : Prop where
  lastApplied : lane'.lastApplied = lane.lastApplied
  queue : lane'.queue = lane.queue ++ news
  lastQueued : lane'.lastQueued.toNat = lane.lastQueued.toNat + news.length
  seqs : news.map (·.seq.toNat) = List.range' (lane.lastQueued.toNat + 1) news.length

theorem DirectLane.Pushed.refl (lane : DirectLane) : lane.Pushed lane [] :=
  ⟨rfl, by simp, by simp, by simp⟩

theorem ExecutionState.Recoverable.queued {s : ExecutionState κ} (h : s.Recoverable)
    (peer : PeerId) : (s.lane peer).Queued := by
  unfold ExecutionState.lane
  cases hget : s.direct.get? peer with
  | none => exact DirectLane.queued_of_nil rfl
  | some lane => exact (h.lanes peer lane hget).queued

theorem DirectLane.Queued.length_ack {lane : DirectLane} (h : lane.Queued)
    (seq : UInt64) :
    (lane.queue.filter (seq < ·.seq)).length =
      lane.lastQueued.toNat + 1 -
        max (lane.lastQueued.toNat + 1 - lane.queue.length) (seq.toNat + 1) := by
  have hle := h.length_le
  have hlen := congrArg List.length (h.seqs_ack seq)
  simp only [List.length_map, List.length_range'] at hlen
  omega

theorem queueDirect_pushed {s : ExecutionState κ} {effects : List Effect}
    {direct result : OrdMap PeerId DirectLane} (h : s.queueDirect direct effects = .ok result)
    (peer : PeerId) :
    ∃ news, ((direct.get? peer).getD .default).Pushed ((result.get? peer).getD .default) news := by
  induction effects generalizing direct with
  | nil =>
    cases h
    exact ⟨[], .refl _⟩
  | cons effect effects ih =>
    cases effect with
    | sendDirect recipient msg range =>
      simp only [queueDirect, bind_eq_ok, ensure_eq_ok, okOr_eq_ok] at h
      obtain ⟨_, -, _, -, seq, hseq, h⟩ := h
      obtain ⟨news, hnews⟩ := ih h
      by_cases hpeer : peer = recipient
      · subst hpeer
        have hn : seq.toNat = ((direct.get? peer).getD .default).lastQueued.toNat + 1 := by
          simpa using checkedAdd_eq_some hseq
        rw [OrdMap.get?_insert_self, Option.getD_some] at hnews
        obtain ⟨hlast, hqueue, hqueued, hseqs⟩ := hnews
        refine ⟨⟨seq, msg, range⟩ :: news, hlast, ?_, ?_, ?_⟩
        · rw [hqueue, List.append_assoc, List.singleton_append]
        · rw [hqueued, hn, List.length_cons]
          omega
        · rw [List.map_cons, List.length_cons, List.range'_succ, hseqs, hn]
      · rw [OrdMap.get?_insert_of_ne _ _ hpeer] at hnews
        exact ⟨news, hnews⟩
    | _ => exact ih h

def Input.directFrom (peer : PeerId) : Input → Option (UInt64 × Bytes)
  | .receive source (.direct seq msg _) _ => if source = peer then some (seq, msg) else none
  | _ => none

theorem Input.eq_receive_of_directFrom {peer : PeerId} {input : Input} {seq : UInt64} {msg : Bytes}
    (h : input.directFrom peer = some (seq, msg)) :
    ∃ attachment reply, input = .receive peer (.direct seq msg attachment) reply := by
  unfold directFrom at h
  split at h
  · split at h
    · rename_i hsource
      cases h
      exact ⟨_, _, by rw [hsource]⟩
    · cases h
  · cases h

/-- What one committed decision does to the lane of a peer. -/
structure LaneMove (input : Input) (peer : PeerId) (s t : ExecutionState κ)
    (news : List DirectEntry) : Prop where
  lastQueued : (t.lane peer).lastQueued.toNat = (s.lane peer).lastQueued.toNat + news.length
  seqs : news.map (·.seq.toNat) = List.range' ((s.lane peer).lastQueued.toNat + 1) news.length
  queue : (t.lane peer).queue = (s.lane peer).queue ++ news ∨ news = [] ∧
    ((t.lane peer).queue = [] ∧ t.status.isTerminal = true ∨
      ∃ seq outcome, input = .settle peer (.direct seq) outcome ∧ SendOutcomeDrops outcome = true ∧
        (t.lane peer).queue = (s.lane peer).queue.filter (seq < ·.seq))
  applied : input.directFrom peer = none ∧ (t.lane peer).lastApplied = (s.lane peer).lastApplied ∨
    ∃ seq msg, input.directFrom peer = some (seq, msg) ∧ s.directArrival peer seq = .next ∧
      (t.lane peer).lastApplied = seq

section Moves

variable {keys : HostKeys} {db : Db κ} {s t next : ExecutionState κ} {input : Input}
  {change : Change κ} {peer : PeerId} {news : List DirectEntry}

private theorem LaneMove.of_pushed (hinput : input.directFrom peer = none)
    (h : (s.lane peer).Pushed (t.lane peer) news) : LaneMove input peer s t news :=
  ⟨h.lastQueued, h.seqs, .inl h.queue, .inl ⟨hinput, h.lastApplied⟩⟩

private theorem LaneMove.of_direct_eq (hinput : input.directFrom peer = none)
    (h : t.direct = s.direct) : LaneMove input peer s t [] := by
  refine .of_pushed hinput ?_
  unfold ExecutionState.lane
  rw [h]
  exact .refl _

/-- Entering the end clears the queues; the numbers stay. -/
private theorem LaneMove.of_beginEnd (hinput : input.directFrom peer = none)
    (ht : t.direct = next.beginEnd.direct) (hdirect : next.direct = s.direct)
    (hstatus : t.status = next.status) : LaneMove input peer s t [] := by
  by_cases hend : next.entersEnd
  · have hlane : t.lane peer = { s.lane peer with queue := [] } := by
      unfold ExecutionState.lane
      simp only [ht, beginEnd, hend, ↓reduceIte, OrdMap.get?_mapValues, hdirect]
      cases s.direct.get? peer <;> rfl
    have hterminal : t.status.isTerminal = true := hstatus ▸ hend.1
    refine ⟨?_, rfl, .inr ⟨rfl, .inl ⟨?_, hterminal⟩⟩, .inl ⟨hinput, ?_⟩⟩
    all_goals rw [hlane]
    rfl
  · refine .of_direct_eq hinput ?_
    rw [ht, ← hdirect]
    simp only [beginEnd, hend, ↓reduceIte]

theorem toNat_of_directArrival {seq : UInt64} (h : s.directArrival peer seq = .next) :
    seq.toNat = (s.lane peer).lastApplied.toNat + 1 := by
  unfold directArrival at h
  dsimp only at h
  split at h
  · cases h
  split at h
  · rename_i hadd
    simpa using checkedAdd_eq_some hadd
  · cases h

private theorem LaneMove.of_recordDirect {source : PeerId} {seq : UInt64} {msg : Bytes}
    {attachment : Option Bytes} {reply : GuestReply}
    (hpushed : (s.lane peer).Pushed (next.lane peer) news)
    (hrecord : next.recordDirect source seq = .ok t) :
    LaneMove (.receive source (.direct seq msg attachment) reply) peer s t news := by
  obtain ⟨-, -, harrival, v, -, rfl⟩ := recordDirect_eq_ok hrecord
  by_cases hpeer : peer = source
  · subst hpeer
    have hnext : s.directArrival peer seq = .next := by
      simpa only [directArrival, hpushed.lastApplied] using harrival
    refine ⟨?_, hpushed.seqs, .inl ?_, .inr ⟨seq, msg, by simp [Input.directFrom], hnext, ?_⟩⟩
    · simpa [ExecutionState.lane] using hpushed.lastQueued
    · simpa [ExecutionState.lane] using hpushed.queue
    · simp [ExecutionState.lane]
  · have hinput :
        (Input.receive source (.direct seq msg attachment) reply).directFrom peer = none := by
      simp [Input.directFrom, Ne.symm hpeer]
    refine .of_pushed hinput ?_
    simpa [ExecutionState.lane, OrdMap.get?_insert_of_ne _ _ hpeer] using hpushed

private theorem LaneMove.of_ackDirect {recipient : PeerId} {seq : UInt64} {outcome : SendOutcome}
    (houtcome : SendOutcomeDrops outcome = true) (h : s.ackDirect recipient seq = .ok (some t)) :
    LaneMove (.settle recipient (.direct seq) outcome) peer s t [] := by
  obtain ⟨-, -, v, -, rfl⟩ := ackDirect_eq_ok h
  by_cases hpeer : peer = recipient
  · subst hpeer
    refine ⟨?_, rfl, .inr ⟨rfl, .inr ⟨seq, outcome, rfl, houtcome, ?_⟩⟩, .inl ⟨rfl, ?_⟩⟩
    all_goals simp [ExecutionState.lane]
  · refine .of_pushed rfl ?_
    simpa [ExecutionState.lane, OrdMap.get?_insert_of_ne _ _ hpeer] using DirectLane.Pushed.refl _

private theorem LaneMove.of_certifyStep {certificate : StepCertificate}
    {certified : SharedProposal κ} (hinput : input.directFrom peer = none)
    (h : next.certifyStep certificate = .ok (t, certified)) (hdirect : next.direct = s.direct) :
    LaneMove input peer s t [] := by
  obtain ⟨proposal, cursor, bytes, v, -, -, -, -, -, -, -, -, rfl⟩ := certifyStep_eq_ok h
  exact .of_beginEnd hinput rfl hdirect rfl

private theorem LaneMove.of_addStepSignature {x : ParticipantStepSignature}
    {certified : Option (SharedProposal κ)} (hinput : input.directFrom peer = none)
    (h : s.addStepSignature x = .ok (t, certified)) : LaneMove input peer s t [] := by
  obtain ⟨proposal, signed, -, -, ⟨-, -, v, -, rfl⟩ | ⟨-, certificate, done, -, -, hcertify⟩⟩ :=
    addStepSignature_eq_ok h
  · exact .of_direct_eq hinput rfl
  · exact .of_certifyStep hinput hcertify rfl

private theorem LaneMove.of_stop {occurrence : AbortOccurrence}
    (hinput : input.directFrom peer = none)
    (h : s.stop occurrence = .ok t) : LaneMove input peer s t [] := by
  obtain ⟨-, -, -, -, -, -, v, -, rfl⟩ := stop_eq_ok h
  exact .of_beginEnd hinput rfl rfl rfl

/-- A dispatch pushes what its event queues; an agreed event queues nothing. -/
theorem applyDispatch_pushed {event : Event} {result : DispatchResult κ} {pendingId : Option UInt64}
    {frame : Option ExecFrame} (h : s.applyDispatch event result pendingId = .ok (t, frame))
    (peer : PeerId) : ∃ news, (s.lane peer).Pushed (t.lane peer) news := by
  obtain ⟨-, ⟨-, -, lifecycle, hlocal⟩ | ⟨-, -, indexed, lifecycle, hindexed, hagreed⟩⟩ :=
    applyDispatch_eq_ok h
  · obtain ⟨-, -, -, _, direct, _, _, -, -, hdirect, -, -, rfl⟩ := applyLocal_eq_ok hlocal
    exact queueDirect_pushed hdirect peer
  · obtain ⟨-, -, _, _, _, -, -, -, -, rfl⟩ := applyAgreed_eq_ok hindexed hagreed
    exact ⟨[], .refl _⟩

theorem Committed.lane (h : Committed keys db s input t change) (peer : PeerId) :
    ∃ news, LaneMove input peer s t news := by
  cases h with
  | activate h =>
    obtain ⟨-, -, v, -, rfl⟩ := activate_eq_ok h
    exact ⟨[], .of_direct_eq rfl rfl⟩
  | dispatch hinput h =>
    obtain ⟨news, hnews⟩ := applyDispatch_pushed h peer
    refine ⟨news, .of_pushed ?_ hnews⟩
    cases input <;> first | rfl | cases hinput
  | message h hstaged =>
    obtain ⟨news, hnews⟩ := applyDispatch_pushed h peer
    exact ⟨news, .of_pushed rfl hnews⟩
  | direct hopen hlocal h hrecord =>
    obtain ⟨news, hnews⟩ := applyDispatch_pushed h peer
    exact ⟨news, .of_recordDirect hnews hrecord⟩
  | discard hopen hrecord => exact ⟨[], .of_recordDirect (.refl _) hrecord⟩
  | drop h =>
    obtain ⟨-, v, -, rfl⟩ := dropOutgoingHead_eq_ok h
    exact ⟨[], .of_direct_eq rfl rfl⟩
  | sign hproposal h => exact ⟨[], .of_addStepSignature rfl h⟩
  | signature hproposal h => exact ⟨[], .of_addStepSignature rfl h⟩
  | certificate h => exact ⟨[], .of_certifyStep rfl h rfl⟩
  | stop hsender h => exact ⟨[], .of_stop rfl h⟩
  | abort h => exact ⟨[], .of_stop rfl h⟩
  | publish hassemble h =>
    obtain ⟨-, _, v, -, -, rfl⟩ := publishReceipt_eq_ok h
    exact ⟨[], .of_direct_eq rfl rfl⟩
  | ack houtcome h => exact ⟨[], .of_ackDirect houtcome h⟩
  | @evidence _ _ frame _ hauth hterminal hmatch h =>
    obtain ⟨_, v, phase, -, -, -, rfl, -⟩ := confirmEnd_eq_ok h
    refine ⟨[], .of_direct_eq ?_ rfl⟩
    -- a direct frame is no evidence of a conclusion
    cases frame with
    | direct seq msg attachment => simp [endConclusionMatches] at hmatch
    | _ => rfl
  | confirmed hfinal h =>
    obtain ⟨_, v, phase, -, -, -, rfl, -⟩ := confirmEnd_eq_ok h
    exact ⟨[], .of_direct_eq rfl rfl⟩
  | expire h =>
    obtain ⟨_, v, -, -, rfl⟩ := expireEnd_eq_ok h
    exact ⟨[], .of_direct_eq rfl rfl⟩

end Moves

/-! ## The direct histories of a host -/

def Record.directSent (peer : PeerId) (record : Record κ) : List (UInt64 × Bytes) :=
  ((record.next.directQueue peer).filter
    fun entry => (record.before.lane peer).lastQueued < entry.seq).map
      fun entry => (entry.seq, entry.msg)

namespace Host

/-- The messages ever queued for a peer, oldest first. -/
def directSent (h : Host κ) (peer : PeerId) : List (UInt64 × Bytes) :=
  h.journal.reverse.flatMap (·.directSent peer)

/-- The messages of a peer that were ever applied or discarded, oldest first. -/
def directApplied (h : Host κ) (source : PeerId) : List (UInt64 × Bytes) :=
  h.journal.reverse.filterMap (·.input.directFrom source)

variable {keys : HostKeys} {h h' : Host κ} {input : Input} {peer : PeerId}
  {next : ExecutionState κ} {db : Db κ}

theorem directSent_record :
    (h.record input next db).directSent peer =
      h.directSent peer ++ Record.directSent peer ⟨h.db.state, input, next⟩ := by
  simp [directSent, record]

theorem directApplied_record :
    (h.record input next db).directApplied peer =
      h.directApplied peer ++ (input.directFrom peer).toList := by
  cases hfrom : input.directFrom peer <;> simp [directApplied, record, hfrom]

theorem Transition.direct_prefix (ht : Transition keys h input h') (peer : PeerId) :
    h.directSent peer <+: h'.directSent peer ∧ h.directApplied peer <+: h'.directApplied peer := by
  cases ht with
  | quiet live hlive => exact ⟨List.prefix_refl _, List.prefix_refl _⟩
  | commit hlive hcommitted hversion hwritten =>
    rw [directSent_record, directApplied_record]
    exact ⟨List.prefix_append _ _, List.prefix_append _ _⟩

/-- The queue of a lane holds the end of the numbered history of queued messages, and the applied
messages are numbered up to the last applied one. -/
structure Lanes (h : Host κ) (peer : PeerId) : Prop where
  numbered : Numbered (h.directSent peer)
  lastQueued : (h.directSent peer).length = (h.db.state.lane peer).lastQueued.toNat
  queue : ∀ entry ∈ h.db.state.directQueue peer, (entry.seq, entry.msg) ∈ h.directSent peer
  ordered : Numbered (h.directApplied peer)
  lastApplied : (h.directApplied peer).length = (h.db.state.lane peer).lastApplied.toNat

theorem directSent_of_move {s t : ExecutionState κ} {news : List DirectEntry}
    (hqueued : (s.lane peer).Queued) (hmove : LaneMove input peer s t news) :
    Record.directSent peer ⟨s, input, t⟩ = news.map fun entry => (entry.seq, entry.msg) := by
  have hold : ∀ entry ∈ (s.lane peer).queue, ¬ (s.lane peer).lastQueued < entry.seq := by
    intro entry hmem hlt
    have hseq := List.mem_map_of_mem (f := (·.seq.toNat)) hmem
    have hle := hqueued.length_le
    rw [hqueued.seqs, List.mem_range'_1] at hseq
    rw [UInt64.lt_iff_toNat_lt] at hlt
    omega
  have hnew : ∀ entry ∈ news, (s.lane peer).lastQueued < entry.seq := by
    intro entry hmem
    have hseq := List.mem_map_of_mem (f := (·.seq.toNat)) hmem
    rw [hmove.seqs, List.mem_range'_1] at hseq
    rw [UInt64.lt_iff_toNat_lt]
    omega
  unfold Record.directSent directQueue
  congr 1
  rcases hmove.queue with hqueue | ⟨rfl, ⟨hqueue, -⟩ | ⟨seq, outcome, -, -, hqueue⟩⟩
  · rw [hqueue, List.filter_append, List.filter_eq_nil_iff.2 (by simpa using hold),
      List.filter_eq_self.2 (by simpa using hnew), List.nil_append]
  · rw [hqueue, List.filter_nil]
  · rw [hqueue, List.filter_filter, List.filter_eq_nil_iff]
    intro entry hmem
    simp [hold entry hmem]

theorem Lanes.transition (hlanes : h.Lanes peer) (hs : h.Sound keys)
    (ht : Transition keys h input h') : h'.Lanes peer := by
  cases ht with
  | quiet live hlive =>
    exact { hlanes with }
  | @commit next change db hlive hcommitted hversion hwritten =>
    obtain ⟨news, hmove⟩ := hcommitted.lane peer
    have hstate : (h.record input next db).db.state = next := hwritten.state
    have hsent := directSent_of_move (hs.recoverable.queued peer) hmove
    refine ⟨?_, ?_, ?_, ?_, ?_⟩
    · rw [directSent_record, hsent]
      refine hlanes.numbered.append ?_
      rw [List.map_map, List.length_map, hlanes.lastQueued]
      exact hmove.seqs
    · rw [hstate, directSent_record, hsent, List.length_append, List.length_map, hlanes.lastQueued,
        hmove.lastQueued]
    · rw [hstate, directSent_record, hsent]
      intro entry hmem
      rw [List.mem_append]
      have hold : entry ∈ (h.db.state.lane peer).queue ∨ entry ∈ news := by
        unfold directQueue at hmem
        rcases hmove.queue with hqueue | ⟨-, ⟨hqueue, -⟩ | ⟨seq, outcome, -, -, hqueue⟩⟩
        · rwa [hqueue, List.mem_append] at hmem
        · rw [hqueue] at hmem
          cases hmem
        · rw [hqueue] at hmem
          exact .inl (List.mem_of_mem_filter hmem)
      exact hold.imp (hlanes.queue entry) (List.mem_map_of_mem)
    · rw [directApplied_record]
      refine hlanes.ordered.append ?_
      rcases hmove.applied with ⟨hnone, -⟩ | ⟨seq, msg, hsome, harrival, -⟩
      · rw [hnone]
        rfl
      · rw [hsome, hlanes.lastApplied, ← toNat_of_directArrival harrival]
        rfl
    · rw [hstate, directApplied_record, List.length_append, hlanes.lastApplied]
      rcases hmove.applied with ⟨hnone, hlast⟩ | ⟨seq, msg, hsome, harrival, hlast⟩
      · rw [hnone, hlast]
        rfl
      · rw [hsome, hlast, toNat_of_directArrival harrival]
        rfl

private theorem Created.lanes (h : Created keys db) (peer : PeerId) : (initial db).Lanes peer := by
  obtain ⟨-, -, -, hempty, -⟩ := h.fresh
  have hdirect : db.state.lane peer = .default := by
    rw [ExecutionState.lane, hempty]
    rfl
  refine ⟨rfl, ?_, ?_, rfl, ?_⟩
  all_goals simp [initial, directQueue, hdirect, directSent, directApplied, DirectLane.default]

private theorem Reachable.lanes (hr : h.Reachable keys) (peer : PeerId) : h.Lanes peer := by
  obtain ⟨db, inputs, hcreated, rfl⟩ := hr
  exact hcreated.sound.run_transition (P := (Lanes · peer))
    (fun _ _ _ hs hlanes ht => hlanes.transition hs ht) (hcreated.lanes peer) inputs

end Host

/-- Whatever frames arrive, also from a faulty participant, the direct messages a host applies are
numbered 1, 2, 3 and so on: none is applied twice and none is passed over. -/
theorem direct_messages_applied_in_order {keys : HostKeys} {h : Host κ} (hr : h.Reachable keys)
    (source : PeerId) :
    Numbered (h.directApplied source) ∧
      (h.directApplied source).length = (h.db.state.lane source).lastApplied.toNat :=
  ⟨(hr.lanes source).ordered, (hr.lanes source).lastApplied⟩

/-- A message that comes too early and a repeated one are not applied. -/
def Sample.disordered : Host referencePrimitives :=
  (Host.initial (Sample.db 1)).run (Sample.keys 1) ((0, .activate) :: [2, 1, 1, 2].map fun seq =>
    (0, .receive (Sample.peer 2) (.direct seq [7] none) (Sample.accepted [])))

open Sample in
theorem direct_messages_applied_in_order_disordered :
    (disordered.directApplied (peer 2)).length = 2 ∧
      Numbered (disordered.directApplied (peer 2)) :=
  ⟨by decide +kernel, (direct_messages_applied_in_order ⟨_, _, created_one, rfl⟩ _).1⟩

/-! ## Answers to direct messages -/

/-- What a decision answers, once it is carried out. -/
def Decision.answer? {α : Type} : Decision κ α → Option α
  | .done a | .commit _ _ a => some a
  | .fail _ => none

theorem Decision.answer?_map {α β : Type} (f : α → β) (decision : Decision κ α) :
    (decision.map f).answer? = decision.answer?.map f := by
  cases decision <;> rfl

theorem Host.answer?_of_handle {keys : HostKeys} {h h' : Host κ} {nowMs : UInt64} {source : PeerId}
    {frame : ExecFrame} {reply : GuestReply} {result : Option ExecDeliveryRejection}
    (hs : h.Sound keys)
    (hhandle : h.handle keys nowMs (.receive source frame reply) = (h', some result)) :
    (acceptFrame h.db.state source frame reply).answer? = some result := by
  cases hlive : h.live with
  | none => simp [handle, hlive] at hhandle
  | some s =>
    obtain rfl := hs.live_eq hlive
    rw [handle_receive hlive] at hhandle
    generalize acceptFrame h.db.state source frame reply = decision at hhandle ⊢
    cases decision with
    | done a => exact congrArg Prod.snd hhandle
    | fail error => exact congrArg Prod.snd hhandle
    | commit next change a =>
      simp only [perform] at hhandle
      split at hhandle
      · exact congrArg Prod.snd hhandle
      · cases hhandle

/-- A direct message of a participant that leaves no gap is acknowledged or put off. -/
theorem acceptFrame_direct {s : ExecutionState κ} {source : PeerId} {seq : UInt64} {msg : Bytes}
    {attachment : Option Bytes} {reply : GuestReply} {result : Option ExecDeliveryRejection}
    (hsource : s.binding.isParticipant source = true)
    (hgap : s.status.isTerminal = false → s.directArrival source seq ≠ .gap)
    (h : (acceptFrame s source (.direct seq msg attachment) reply).answer? = some result) :
    result = none ∨ result = some .notYet := by
  unfold acceptFrame at h
  rw [if_neg (by simp [authenticates, hsource])] at h
  split at h
  · have hmatch : s.endConclusionMatches (.direct seq msg attachment) = .notTerminalEvidence := by
      simp [endConclusionMatches]
    rw [acceptTerminal, hmatch] at h
    exact .inl (Option.some.inj h).symm
  rename_i hrunning
  dsimp only [acceptDirect] at h
  split at h
  · exact .inl (Option.some.inj h).symm
  split at h
  · exact .inl (Option.some.inj h).symm
  · rename_i harrival
    exact absurd harrival (hgap (by simpa using hrunning))
  split at h
  · exact .inr (Option.some.inj h).symm
  · rw [Decision.answer?_map, Option.map_eq_some_iff] at h
    obtain ⟨outcome, -, rfl⟩ := h
    cases outcome with
    | frozen => exact .inr rfl
    | _ => exact .inl rfl

/-! ## Delivery between two parties -/

def Host.Running (h : Host κ) : Prop := h.db.state.status.isTerminal = false

theorem Host.Transition.running {keys : HostKeys} {h h' : Host κ} {input : Input}
    (ht : Transition keys h input h') (hs : h.Sound keys) (hrunning : h'.Running) : h.Running := by
  unfold Running at hrunning ⊢
  by_contra hne
  rw [(ht.of_terminal hs (by simpa using hne)).1] at hrunning
  cases hrunning

/-- Host `b` of party `j` has applied messages that host `a` of party `i` has queued for it.  While
both run, only the next message is on its way, and what left the queue was applied. -/
structure Delivered (i j : PeerId) (a b : Host κ) (packets : List Packet) (answers : List Answer) :
    Prop where
  sender : a.Lanes j
  receiver : b.Lanes i
  applied : b.directApplied i ⊆ a.directSent j
  released : a.Running → b.Running → (a.directSent j).length ≤
    (a.db.state.directQueue j).length + (b.directApplied i).length
  packets : ∀ seq msg attachment, ⟨i, j, .direct seq msg attachment⟩ ∈ packets →
    (seq, msg) ∈ a.directSent j ∧ (b.Running → seq.toNat ≤ (b.directApplied i).length + 1)
  answers : ∀ seq msg attachment result, ⟨⟨i, j, .direct seq msg attachment⟩, result⟩ ∈ answers →
    SendOutcomeDrops (SendOutcome.ofResult result) = true → b.Running →
      seq.toNat ≤ (b.directApplied i).length

namespace Delivered

variable {i j : PeerId} {a a' b b' : Host κ} {packets : List Packet}
  {answers answers' : List Answer}
  {keys : HostKeys} {input : Input} {seq : UInt64} {msg : Bytes} {attachment : Option Bytes}
  (hd : Delivered i j a b packets answers)

include hd

theorem directArrival_ne_gap (hpacket : ⟨i, j, .direct seq msg attachment⟩ ∈ packets)
    (hrunning : b.Running) : b.db.state.directArrival i seq ≠ .gap := by
  have hle := (hd.packets seq msg attachment hpacket).2 hrunning
  rw [hd.receiver.lastApplied] at hle
  unfold directArrival
  dsimp only
  split
  · simp
  rename_i hlt
  rw [UInt64.le_iff_toNat_le] at hlt
  have hseq : seq.toNat = (b.db.state.lane i).lastApplied.toNat + 1 := by omega
  have hfits := seq.toNat_lt
  have hadd : checkedAdd (b.db.state.lane i).lastApplied 1 = some seq := by
    rw [checkedAdd_one (by omega), Option.some.injEq, ← UInt64.toNat_inj, UInt64.toNat_add, hseq]
    exact Nat.mod_eq_of_lt (by simpa using hseq ▸ hfits)
  rw [if_pos hadd]
  simp

/-- The head of a queue is the message after those that left it. -/
theorem head (hs : a.Sound keys) {entry : DirectEntry}
    (hhead : (a.db.state.directQueue j).head? = some entry) :
    entry.seq.toNat + (a.db.state.directQueue j).length = (a.directSent j).length + 1 := by
  have hqueued := hs.recoverable.queued j
  have hle := hqueued.length_le
  have hseqs := congrArg List.head? hqueued.seqs
  rw [hd.sender.lastQueued]
  unfold directQueue at hhead ⊢
  cases hqueue : (a.db.state.lane j).queue with
  | nil => simp [hqueue] at hhead
  | cons first rest =>
    rw [hqueue] at hhead hseqs hle
    cases hhead
    simp only [List.map_cons, List.head?_cons, List.length_cons, List.range'_succ,
      Option.some.injEq] at hseqs hle ⊢
    omega

section Sender

variable (hs : a.Sound keys) (ht : Host.Transition keys a input a')
  (hsettled : ∀ seq outcome, input = .settle j (.direct seq) outcome →
    SendOutcomeDrops outcome = true → b.Running → seq.toNat ≤ (b.directApplied i).length)

include hs ht hsettled

/-- What an input of the sender releases was applied. -/
theorem released_sender (ha : a'.Running) (hb : b.Running) : (a'.directSent j).length ≤
    (a'.db.state.directQueue j).length + (b.directApplied i).length := by
  have hold := hd.released (ht.running hs ha) hb
  cases ht with
  | quiet live hlive => exact hold
  | @commit next change db hlive hcommitted hversion hwritten =>
    obtain ⟨news, hmove⟩ := hcommitted.lane j
    have hstate : (a.record input next db).db.state = next := hwritten.state
    unfold Host.Running at ha
    rw [hstate] at ha ⊢
    have hqueued := hs.recoverable.queued j
    rw [Host.directSent_record, Host.directSent_of_move hqueued hmove, List.length_append,
      List.length_map]
    unfold directQueue at hold ⊢
    rcases hmove.queue with hqueue | ⟨rfl, ⟨-, hterminal⟩ | ⟨seq, outcome, rfl, hdrops, hqueue⟩⟩
    · rw [hqueue, List.length_append]
      omega
    · rw [hterminal] at ha
      cases ha
    · have hle := hsettled seq outcome rfl hdrops hb
      have hsent := hd.sender.lastQueued
      have hlen := hqueued.length_le
      rw [hqueue, hqueued.length_ack, hsent, List.length_nil]
      omega

private theorem sender_step : Delivered i j a' b packets answers := by
  have hgrows := (ht.direct_prefix j).1
  refine ⟨hd.sender.transition hs ht, hd.receiver, List.Subset.trans hd.applied hgrows.subset,
    hd.released_sender hs ht hsettled, ?_, hd.answers⟩
  intro seq msg attachment hpacket
  obtain ⟨hmem, hle⟩ := hd.packets seq msg attachment hpacket
  exact ⟨hgrows.mem hmem, hle⟩

end Sender

section Receiver

variable (ht : Host.Transition keys b input b')
  (hreceived : ∀ seq msg attachment reply, input = .receive i (.direct seq msg attachment) reply →
    ⟨i, j, .direct seq msg attachment⟩ ∈ packets)

include ht hreceived

theorem applied_receiver : b'.directApplied i ⊆ a.directSent j := by
  cases ht with
  | quiet live hlive => exact hd.applied
  | commit hlive hcommitted hversion hwritten =>
    rw [Host.directApplied_record, List.append_subset]
    refine ⟨hd.applied, ?_⟩
    rintro ⟨seq, msg⟩ hmem
    obtain ⟨attachment, reply, rfl⟩ := Input.eq_receive_of_directFrom (Option.mem_toList.1 hmem)
    exact (hd.packets seq msg attachment (hreceived _ _ _ _ rfl)).1

private theorem receiver_step (hs : b.Sound keys) : Delivered i j a b' packets answers := by
  have hgrows := (ht.direct_prefix i).2.length_le
  refine ⟨hd.sender, hd.receiver.transition hs ht, hd.applied_receiver ht hreceived, ?_, ?_, ?_⟩
  · intro ha hb
    exact (hd.released ha (ht.running hs hb)).trans (Nat.add_le_add_left hgrows _)
  · intro seq msg attachment hpacket
    obtain ⟨hmem, hle⟩ := hd.packets seq msg attachment hpacket
    exact ⟨hmem, fun hb => (hle (ht.running hs hb)).trans (Nat.add_le_add_right hgrows 1)⟩
  · intro seq msg attachment result hanswer hdrops hb
    exact (hd.answers seq msg attachment result hanswer hdrops (ht.running hs hb)).trans hgrows

end Receiver

theorem answer (hanswers : ∀ seq msg attachment result,
      ⟨⟨i, j, .direct seq msg attachment⟩, result⟩ ∈ answers' →
      SendOutcomeDrops (SendOutcome.ofResult result) = true → b.Running →
        seq.toNat ≤ (b.directApplied i).length) :
    Delivered i j a b packets (answers' ++ answers) := by
  refine ⟨hd.sender, hd.receiver, hd.applied, hd.released, hd.packets, ?_⟩
  intro seq msg attachment result hanswer
  rcases List.mem_append.1 hanswer with hnew | hold
  · exact hanswers seq msg attachment result hnew
  · exact hd.answers seq msg attachment result hold

/-- What the receiver acknowledges it has applied. -/
theorem acknowledged {nowMs : UInt64} {reply : GuestReply} {result : Option ExecDeliveryRejection}
    (hs : b.Sound keys) (hsource : b.db.state.binding.isParticipant i = true)
    (hpacket : ⟨i, j, .direct seq msg attachment⟩ ∈ packets)
    (hhandle : b.handle keys nowMs (.receive i (.direct seq msg attachment) reply) =
      (b', some result)) (hlanes : b'.Lanes i)
    (hdrops : SendOutcomeDrops (SendOutcome.ofResult result) = true) (hrunning : b'.Running) :
    seq.toNat ≤ (b'.directApplied i).length := by
  rcases acceptFrame_direct hsource (hd.directArrival_ne_gap hpacket)
    (Host.answer?_of_handle hs hhandle) with rfl | rfl
  · have hack := hs.acknowledged (congrArg Prod.snd hhandle)
    have hs' := hs.handle nowMs (.receive i (.direct seq msg attachment) reply)
    rw [hhandle] at hack hs'
    rcases hack with (hterminal | hle | hended) | hlost
    · exact absurd (hrunning.symm.trans hterminal) (by decide)
    · rw [hlanes.lastApplied]
      exact UInt64.le_iff_toNat_le.1 hle
    · exact absurd (hs'.recoverable.endPhase_eq_open hrunning) hended
    · exact hlost.2.2.elim
  · cases hdrops

/-- Only the head of the queue is sent. -/
theorem send (hs : a.Sound keys) {packet : Packet}
    (hsends : packet.source = i → packet.recipient = j → sends a.db.state j packet.frame = true) :
    Delivered i j a b (packet :: packets) answers := by
  refine ⟨hd.sender, hd.receiver, hd.applied, hd.released, ?_, hd.answers⟩
  intro seq msg attachment hpacket
  rcases List.mem_cons.1 hpacket with rfl | hpacket
  · have hsends := hsends rfl rfl
    dsimp only [sends] at hsends
    split at hsends
    · rename_i entry hhead
      simp only [Bool.and_eq_true, decide_eq_true_eq] at hsends
      obtain ⟨⟨rfl, rfl⟩, -⟩ := hsends
      unfold directHead at hhead
      split at hhead
      · cases hhead
      · rename_i hrunning
        have ha : a.Running := by
          simp only [not_or] at hrunning
          simpa [Host.Running] using hrunning.2
        refine ⟨hd.sender.queue entry (List.mem_of_mem_head? hhead), fun hb => ?_⟩
        have hseq := hd.head hs hhead
        have hle := hd.released ha hb
        omega
    · cases hsends
  · exact hd.packets seq msg attachment hpacket

/-- While both parties run, a queued message waits in the queue or was applied. -/
theorem waits_or_applied (hs : a.Sound keys) {message : UInt64 × Bytes}
    (hmem : message ∈ a.directSent j) (ha : a.Running) (hb : b.Running) :
    (∃ entry ∈ a.db.state.directQueue j, (entry.seq, entry.msg) = message) ∨
      message ∈ b.directApplied i := by
  by_cases hle : message.1.toNat ≤ (b.directApplied i).length
  · exact .inr (hd.sender.numbered.mem_of_le hd.receiver.ordered hd.applied hmem hle)
  left
  have hqueued := hs.recoverable.queued j
  have hnumber : message.1.toNat ∈ (a.db.state.directQueue j).map (·.seq.toNat) := by
    have hbound := hd.sender.numbered.toNat_le hmem
    have hreleased := hd.released ha hb
    have hlen := hqueued.length_le
    have hsent := hd.sender.lastQueued
    unfold directQueue at hreleased ⊢
    rw [hqueued.seqs, List.mem_range'_1]
    omega
  obtain ⟨entry, hentry, hseq⟩ := List.mem_map.1 hnumber
  have hget := hd.sender.numbered.getElem?_of_mem (hd.sender.queue entry hentry)
  rw [hseq, hd.sender.numbered.getElem?_of_mem hmem] at hget
  exact ⟨entry, hentry, (Option.some.inj hget).symm⟩

end Delivered

namespace Session

variable {parties : Parties} {activation : Activation κ} {sys sys' : Session κ} {i j : PeerId}

def Delivery (sys : Session κ) (i j : PeerId) : Prop :=
  Delivered i j (sys.host i) (sys.host j) sys.packets sys.answers

/-- A settled send was answered, so the receiver has applied its message. -/
theorem Delivery.settled (hd : sys.Delivery i j) (hj : j ∈ parties.correct) {input : Input}
    (hadmits : sys.Admits parties i input) (seq : UInt64) (outcome : SendOutcome)
    (hinput : input = .settle j (.direct seq) outcome) (hdrops : SendOutcomeDrops outcome = true)
    (hrunning : (sys.host j).Running) : seq.toNat ≤ ((sys.host j).directApplied i).length := by
  subst hinput
  have hfailed : outcome ≠ .failed := by
    rintro rfl
    cases hdrops
  obtain ⟨⟨⟨source, recipient, frame⟩, result⟩, hanswer, rfl, rfl, hframe, rfl⟩ :=
    hadmits hj hfailed
  cases frame with
  | direct seq' msg attachment =>
    obtain rfl : seq' = seq := by simpa [Sent.ofFrame] using hframe
    exact hd.answers seq' msg attachment result hanswer hdrops hrunning
  | _ => simp [Sent.ofFrame] at hframe

theorem eq_of_mem_answered {k : PeerId} {input : Input} {frame : ExecFrame}
    {result : Option (Option ExecDeliveryRejection)} {answer : Option ExecDeliveryRejection}
    (h : ⟨⟨i, j, frame⟩, answer⟩ ∈ answered k input result) :
    k = j ∧ ∃ reply, input = .receive i frame reply ∧ result = some answer := by
  unfold answered at h
  split at h
  · simp only [List.mem_singleton, Answer.mk.injEq, Packet.mk.injEq] at h
    obtain ⟨⟨rfl, rfl, rfl⟩, rfl⟩ := h
    exact ⟨rfl, _, rfl, rfl⟩
  · cases h

private theorem Delivery.step (hd : sys.Delivery i j) (hs : sys.Sound parties activation)
    (hi : i ∈ parties.correct) (hj : j ∈ parties.correct) (hij : i ≠ j) {action : Action}
    (hstep : Step parties sys action sys') : sys'.Delivery i j := by
  cases hstep with
  | idle => exact hd
  | @input k input host result nowMs hk hadmits hhandle =>
    have ht : Host.Transition (parties.keys k) (sys.host k) input host := by
      simpa only [hhandle] using (hs.party k hk).sound.transition nowMs input
    unfold Delivery
    dsimp only
    by_cases hkj : k = j
    · subst hkj
      have hp := hs.party k hj
      have hreceived : ∀ seq msg attachment reply,
          input = .receive i (.direct seq msg attachment) reply →
          ⟨i, k, .direct seq msg attachment⟩ ∈ sys.packets := by
        rintro seq msg attachment reply rfl
        simpa [Admits, Delivers, hi] using hadmits
      have hd' := hd.receiver_step ht hreceived hp.sound
      rw [Function.update_self, Function.update_of_ne hij]
      refine hd'.answer ?_
      intro seq msg attachment answer hanswer
      obtain ⟨-, reply, rfl, rfl⟩ := eq_of_mem_answered hanswer
      refine hd.acknowledged hp.sound ?_ (hreceived _ _ _ _ rfl) hhandle hd'.receiver
      rw [hp.binding]
      exact hs.isParticipant hi
    · rw [Function.update_of_ne (Ne.symm hkj)]
      refine Delivered.answer ?_ fun seq msg attachment answer hanswer =>
        absurd (eq_of_mem_answered hanswer).1 hkj
      by_cases hki : k = i
      · subst hki
        rw [Function.update_self]
        exact hd.sender_step (hs.party k hi).sound ht (hd.settled hj hadmits)
      · rw [Function.update_of_ne (Ne.symm hki)]
        exact hd
  | send hsource hlive hsends =>
    refine hd.send (hs.party i hi).sound ?_
    rintro rfl rfl
    rwa [(hs.party _ hi).sound.live_eq hlive]
  | @route packet result hrecipient hdelivers hroute =>
    -- a party that does not run answers only once it has ended
    show Delivered i j _ _ _ ([⟨packet, result⟩] ++ sys.answers)
    refine Delivered.answer hd ?_
    intro seq msg attachment answer hanswer hdrops hrunning
    obtain ⟨rfl, rfl⟩ := Answer.mk.inj (List.mem_singleton.1 hanswer)
    have hopen := (hs.party j hj).sound.recoverable.endPhase_eq_open hrunning
    simp [routeExec, hopen] at hroute

theorem Initial.delivery (hinitial : Initial parties activation sys) (hi : i ∈ parties.correct)
    (hj : j ∈ parties.correct) : sys.Delivery i j := by
  have hlanes : ∀ k ∈ parties.correct, ∀ peer, (sys.host k).Lanes peer ∧
      (sys.host k).journal = [] := by
    intro k hk peer
    obtain ⟨db, hcreated, -, hhost⟩ := hinitial.created k hk
    rw [hhost]
    exact ⟨hcreated.lanes peer, rfl⟩
  refine ⟨(hlanes i hi j).1, (hlanes j hj i).1, ?_, ?_, ?_, ?_⟩
  · simp [Host.directApplied, (hlanes j hj i).2]
  · simp [Host.directSent, (hlanes i hi j).2]
  · simp [hinitial.packets]
  · simp [hinitial.answers]

theorem Reachable.delivery (hr : sys.Reachable parties activation) (hi : i ∈ parties.correct)
    (hj : j ∈ parties.correct) (hij : i ≠ j) : sys.Delivery i j := by
  obtain ⟨start, actions, hinitial, rfl⟩ := hr
  exact (run_induction parties (P := fun sys => sys.Sound parties activation ∧ sys.Delivery i j)
    ⟨hinitial.sound, hinitial.delivery hi hj⟩
    (fun h _ hstep => ⟨h.1.step hstep, h.2.step h.1 hi hj hij hstep⟩)
    (allSteps_true parties start actions)).2

end Session

/-- Direct messages between two parties are applied exactly once and in order: the queued ones
are numbered 1, 2, 3 and so on, the applied ones are a prefix of them, no message on its way
leaves a gap, and a message leaves the queue only when it was applied or a party has ended. -/
theorem direct_messages_exactly_once {parties : Parties} {activation : Activation κ}
    {sys : Session κ} {i j : PeerId} (hr : sys.Reachable parties activation)
    (hi : i ∈ parties.correct) (hj : j ∈ parties.correct) (hij : i ≠ j) :
    Numbered ((sys.host i).directSent j) ∧
    (sys.host j).directApplied i <+: (sys.host i).directSent j ∧
    ((sys.host j).db.state.lane i).lastApplied.toNat = ((sys.host j).directApplied i).length ∧
    (∀ seq msg attachment, ⟨i, j, .direct seq msg attachment⟩ ∈ sys.packets →
      (sys.host j).db.state.endPhase = .open →
        (sys.host j).db.state.directArrival i seq ≠ .gap) ∧
    ∀ message ∈ (sys.host i).directSent j,
      (∃ entry ∈ (sys.host i).db.state.directQueue j, (entry.seq, entry.msg) = message) ∨
      message ∈ (sys.host j).directApplied i ∨
      (sys.host i).db.state.endPhase ≠ .open ∨ (sys.host j).db.state.endPhase ≠ .open := by
  have hs := hr.sound
  have hd := hr.delivery hi hj hij
  have hrunning : ∀ k ∈ parties.correct, (sys.host k).db.state.endPhase = .open →
      (sys.host k).Running := by
    intro k hk hopen
    unfold Host.Running
    by_contra hne
    exact (hs.party k hk).sound.recoverable.endPhase_ne_open (by simpa using hne) hopen
  have hprefix := hd.sender.numbered.prefix_of_subset hd.receiver.ordered hd.applied
  refine ⟨hd.sender.numbered, hprefix, hd.receiver.lastApplied.symm, ?_, ?_⟩
  · intro seq msg attachment hpacket hopen
    exact hd.directArrival_ne_gap hpacket (hrunning j hj hopen)
  · intro message hmem
    by_cases hi' : (sys.host i).db.state.endPhase = .open
    · by_cases hj' : (sys.host j).db.state.endPhase = .open
      · have hwaits := hd.waits_or_applied (hs.party i hi).sound hmem (hrunning i hi hi')
          (hrunning j hj hj')
        exact hwaits.imp_right .inl
      · exact .inr (.inr (.inr hj'))
    · exact .inr (.inr (.inl hi'))

/-- The first participant asks at the session start, queues two messages for the second one when
it is answered and sends the first of them, which is applied. -/
def Sample.directSession : Session referencePrimitives :=
  Sample.session.run Sample.parties
    ([.input (Sample.peer 1) 0 .activate,
      .input (Sample.peer 1) 0 (.start (.accepted (some Sample.shared) (some Sample.localState) []
        (some ⟨0, [1]⟩) (.error "no outcome"))),
      .input (Sample.peer 1) 0 .sign] ++ Sample.signStart 2 ++
    [Sample.sendStart 1 2, Sample.sendStart 2 1, Sample.deliverStart 1 2, Sample.deliverStart 2 1,
      .input (Sample.peer 1) 0 (.submit 793648593815272074 [7] (Sample.accepted
        [.sendDirect (Sample.peer 2) [1] none, .sendDirect (Sample.peer 2) [2] none])),
      .send ⟨Sample.peer 1, Sample.peer 2, .direct 1 [1] none⟩,
      .input (Sample.peer 2) 0 (.receive (Sample.peer 1) (.direct 1 [1] none)
        (Sample.accepted []))])

open Sample in
theorem direct_messages_exactly_once_first :
    (directSession.host (peer 2)).directApplied (peer 1) = [(1, [1])] ∧
    ∃ entry ∈ (directSession.host (peer 1)).db.state.directQueue (peer 2),
      (entry.seq, entry.msg) = (2, [2]) := by
  have hrun : (directSession.host (peer 1)).directSent (peer 2) =
        [(1, [1]), (2, [2])] ∧
      (directSession.host (peer 2)).directApplied (peer 1) = [(1, [1])] ∧
      (directSession.host (peer 1)).db.state.endPhase = .open ∧
      (directSession.host (peer 2)).db.state.endPhase = .open := by decide +kernel
  obtain ⟨hsent, happlied, hopen, hopen'⟩ := hrun
  have hr : directSession.Reachable parties activation :=
    ⟨_, _, initial_session, rfl⟩
  have hall := (direct_messages_exactly_once hr (i := peer 1) (j := peer 2)
    (by decide) (by decide) (by decide)).2.2.2.2 (2, [2]) (by simp [hsent])
  rcases hall with hqueued | hmem | hended | hended
  · exact ⟨happlied, hqueued⟩
  · simp [happlied] at hmem
  · exact absurd hopen hended
  · exact absurd hopen' hended

end Arena0
