import Arena0.HostInvariant
import Arena0.Records

/-!
# The invariant of the database

The columns and rows of an execution follow its aggregate in every database that
creations, actors and imports write: events are gapless up to the event position, agreed
rows are the certified trace, timers were armed at a version that exists, and a
published receipt is stored under the one execution that produced it.
-/

namespace Arena0

open Borsh Fallible Actor ExecutionState

variable {κ : Primitives}

/-! ## The columns of an aggregate -/

/-- The columns of an execution follow its aggregate. -/
structure ExecutionRow.Follows (row : ExecutionRow) (hostId : PeerId) (s : ExecutionState κ) :
    Prop where
  executionId : row.executionId = s.executionId
  hostId_eq : row.hostId = hostId
  producer : row.producer = s.producer
  sessionId : row.sessionId = s.binding.sessionId
  state : ∃ bytes, s.encode = .ok bytes ∧
    DurableEnvelope.«seal» κ .executionState bytes = .ok row.state
  version : row.version = s.version
  lifecycle : row.lifecycle = s.lifecycle
  agreedStep : row.agreedStep = s.agreedStep
  eventPosition : row.eventPosition = s.eventPosition
  endPhase : row.endPhase = endColumns s.endPhase
  summary : StateColumns.of s = .ok row.summary
  callout : row.calloutOpenedAtMs.isSome = row.summary.calloutId.isSome

variable {s : ExecutionState κ} {next : ExecutionState κ} {change : Change κ} {d' : Database κ}
  {nowMs : UInt64} {input : Input}

theorem StateColumns.calloutId_of {columns : StateColumns} (h : StateColumns.of s = .ok columns) :
    columns.calloutId = s.callout.map (·.id) := by
  simp only [StateColumns.of, bind_eq_ok, pure_eq_ok] at h
  obtain ⟨_, -, _, -, rfl⟩ := h
  rfl

theorem ExecutionRow.insertExecution_follows {hostId : PeerId} {nowMs : UInt64} {row : ExecutionRow}
    (h : ExecutionRow.insertExecution hostId s nowMs = .ok row) : row.Follows hostId s := by
  simp only [insertExecution, bind_eq_ok, mapError_eq_ok, pure_eq_ok] at h
  obtain ⟨bytes, hencode, summary, hsummary, sealed, hseal, rfl⟩ := h
  refine ⟨rfl, rfl, rfl, rfl, ⟨bytes, hencode, hseal⟩, rfl, rfl, rfl, rfl, rfl, hsummary, ?_⟩
  rw [StateColumns.calloutId_of hsummary]
  cases s.callout <;> rfl

theorem ExecutionRow.Follows.persistState {row row' : ExecutionRow} {hostId : PeerId}
    {nowMs : UInt64} (h : row.Follows hostId s)
    (hsame : SameExecution s next) (hpersist : row.persistState next nowMs = .ok row') :
    row'.Follows hostId next := by
  simp only [ExecutionRow.persistState, bind_eq_ok, mapError_eq_ok, pure_eq_ok] at hpersist
  obtain ⟨bytes, hencode, summary, hsummary, sealed, hseal, rfl⟩ := hpersist
  refine ⟨h.executionId.trans hsame.executionId.symm, h.hostId_eq,
    h.producer.trans hsame.producer.symm, ?_, ⟨bytes, hencode, hseal⟩, rfl, rfl, rfl, rfl, rfl,
    hsummary, ?_⟩
  · rw [hsame.binding]
    exact h.sessionId
  · -- a callout that stays open keeps its time, which the old row has
    cases hid : summary.calloutId with
    | none => rfl
    | some id =>
      by_cases hkept : row.summary.calloutId = some id
      · have hopened := h.callout
        rw [hkept] at hopened
        simp [hkept, hopened]
      · simp [hkept]

/-! ## The rows of one execution -/

/-- A receipt holds the trace and the terminal evidence of the execution. -/
structure Db.Publishes (db : Db κ) (receipt : ReceiptArtifact κ) : Prop where
  activation : receipt.body.header.activation = db.state.binding.activation
  ledger : db.Ledger receipt.body.trace
  completed : receipt.body.header.terminal = .completed → ∃ outcome,
    Db.terminalOutcome db.state.status = some outcome ∧ receipt.body.outcome = outcome.borsh
  stopped : ∀ cause, receipt.body.header.terminal = .stopped cause →
    db.state.status.terminalCause = some cause

/-- The aggregate was accepted for its host, and the events are gapless up to its position. -/
structure Db.Filed (db : Db κ) : Prop where
  producer : db.state.producer = db.hostId
  encoded : ∃ bytes, db.state.encode = .ok bytes
  position_lt : db.state.eventPosition.toNat < 2 ^ 63
  positions : db.events.map (·.eventPosition.toNat) = List.range db.state.eventPosition.toNat

theorem map_position_append {s next : ExecutionState κ} {events : List EventRow}
    (hpositions : events.map (·.eventPosition.toNat) = List.range s.eventPosition.toNat)
    (hposition : checkedAdd s.eventPosition 1 = some next.eventPosition) {event : Event}
    {effects : List Effect} :
    (events ++ [Db.eventRow κ (next.eventPosition - 1) event effects]).map
      (·.eventPosition.toNat) = List.range next.eventPosition.toNat := by
  have hnext : next.eventPosition.toNat = s.eventPosition.toNat + 1 := by
    simpa using checkedAdd_eq_some hposition
  have hlast : (next.eventPosition - 1).toNat = s.eventPosition.toNat := by
    rw [UInt64.toNat_sub_of_le _ _ (UInt64.le_iff_toNat_le.2 (by simp; omega)), hnext]
    simp
  rw [List.map_append, hpositions, hnext, List.range_succ]
  simp [Db.eventRow, hlast]

theorem ExecutionState.Recoverable.boundedReason (h : s.Recoverable) :
    Db.boundedReason s = .ok () := by
  unfold Db.boundedReason
  split
  · split
    · rename_i cause hcause
      refine ensure_eq_ok.2 ?_
      have hvalid := ExecutionStatus.validate_cause h.status hcause
      cases cause with
      | authenticated occurrence =>
        exact (AbortOccurrence.validateShape_eq_ok.1 hvalid).2.2
      | shared kind commitment reason =>
        simp only [StopCause.validate, ensureReason, ensurePayload, bind_eq_ok,
          ensure_eq_ok] at hvalid
        obtain ⟨_, -, hreason⟩ := hvalid
        exact hreason
    · rfl
  · rfl

theorem Db.Filed.accepts {db : Db κ} (h : db.Filed) (hsame : SameExecution db.state next)
    (hrec : next.Recoverable) (hcallouts : next.CalloutsBounded)
    (hversion : next.version.toNat < 2 ^ 63)
    (hposition : next.eventPosition = db.state.eventPosition) : db.Accepts next := by
  obtain ⟨bytes, hencode, -⟩ := hrec.encode_eq_ok hcallouts
  exact ⟨hsame.executionId, hsame.producer.trans h.producer, ⟨bytes, hencode⟩, hrec.boundedReason,
    hversion, hrec.step_le.trans_lt (by decide), hposition ▸ h.position_lt⟩

theorem Db.Filed.wrote {db db' : Db κ} (h : db.Filed)
    (hcontributes : Contributes db db.state next change) (haccepts : db.Accepts next)
    (hwrote : db.Wrote next nowMs change db') : db'.Filed := by
  have hpositions : db'.events.map (·.eventPosition.toNat) =
      List.range next.eventPosition.toNat := by
    cases hcontributes with
    | aggregate hchange hposition =>
      rw [hposition]
      cases hwrote with
      | aggregate => exact h.positions
      | _ => simp at hchange
    | dispatch hposition =>
      cases hwrote with
      | aggregate hchange => simp at hchange
      | dispatch => exact map_position_append h.positions hposition
    | certify hposition =>
      rw [hposition]
      cases hwrote with
      | aggregate hchange => simp at hchange
      | certified => exact h.positions
    | publish _ hpublish =>
      obtain ⟨-, status, v, -, -, rfl⟩ := publishReceipt_eq_ok hpublish
      cases hwrote with
      | aggregate hchange => simp at hchange
      | published => exact h.positions
  obtain ⟨hstate, hhost⟩ : db'.state = next ∧ db'.hostId = db.hostId := by
    cases hwrote <;> exact ⟨rfl, rfl⟩
  subst hstate
  exact ⟨haccepts.producer.trans hhost.symm, haccepts.encoded, haccepts.eventPosition, hpositions⟩

namespace Host

variable {keys : HostKeys} {h : Host κ}

theorem Created.filed {db : Db κ} (h : Created keys db) : db.Filed := by
  obtain ⟨receipts, executionId, activation, producer, sharedState, localState, nowMs, h⟩ := h
  simp only [Db.create, ExecutionState.new, sqliteU64, bind_eq_ok, mapError_eq_ok, ensure_eq_ok,
    pure_eq_ok] at h
  obtain ⟨_, ⟨_, -, _, -, _, -, _, -, _, -, rfl⟩, _, hproducer, _, -, bytes, hencode, _, -, _, -,
    _, -, _, hposition, _, -, rfl⟩ := h
  exact ⟨hproducer, ⟨bytes, hencode⟩, hposition, rfl⟩

theorem Sound.filed_handle (hs : h.Sound keys) (hfiled : h.db.Filed) (nowMs : UInt64)
    (input : Input) : (h.handle keys nowMs input).1.db.Filed := by
  generalize hresult : (h.handle keys nowMs input).1 = h'
  have hstep := h.handle_step keys nowMs input
  rw [hresult] at hstep
  cases hstep with
  | quiet => exact hfiled
  | commit hlive hdecide hpersist =>
    obtain rfl := hs.live_eq hlive
    obtain ⟨haccepts, hwrote⟩ := Db.persistInTransaction_wrote hpersist
    exact hfiled.wrote ((handle_commit hdecide).contributes hs.recoverable) haccepts hwrote

end Host

namespace Execution

/-- The rows of an execution between two inputs. -/
structure Intact (keys : HostKeys) (e : Execution κ) : Prop where
  sound : e.host.Sound keys
  filed : e.host.db.Filed
  recorded : ∀ row ∈ e.host.db.events, row.Recorded κ
  timers : ∀ row ∈ e.host.db.timers, row.Armed e.host.db.state.version
  stepStates : e.stepStates.length = e.host.db.agreedSteps.length
  columns : e.row.Follows keys.peerId e.host.db.state
  lastStep : e.row.lastStepAtMs = e.host.db.agreedSteps.getLast?.map (·.certifiedAtMs)
  production : e.host.db.production = e.host.db.state.status.publishedReceiptId

variable {keys : HostKeys} {e : Execution κ}

theorem Intact.withReceipts (h : e.Intact keys) (receipts : List (ReceiptArtifact κ)) :
    (e.withReceipts receipts).Intact keys := by
  obtain ⟨entries, hledger⟩ := h.sound.ledger
  exact { h with
    sound := { h.sound with ledger := ⟨entries, { hledger with }⟩ }, filed := { h.filed with } }

inductive Columns (e : Execution κ) (nowMs : UInt64) (row : ExecutionRow) :
    Change κ → ExecutionRow → List (UInt64 × SharedStateBytes) → Prop
  | same {change : Change κ} (hchange : ∀ proposal, change ≠ .stepSignature (some proposal)) :
      Columns e nowMs row change row e.stepStates
  | certified {proposal : SharedProposal κ} :
      Columns e nowMs row (.stepSignature (some proposal)) { row with lastStepAtMs := some nowMs }
        (e.stepStates ++ [(proposal.entry.step, proposal.sharedState)])

/-- One input of a sound execution: no row changes, or one transaction over all of them. -/
inductive Moves (keys : HostKeys) (others : List ReceiptId) (e : Execution κ) :
    Execution κ → Prop
  | quiet (live : Option (ExecutionState κ)) (hlive : live = none ∨ live = some e.host.db.state) :
      Moves keys others e { e with host := { e.host with live := live } }
  | commit {input : Input} {next : ExecutionState κ} {change : Change κ} {nowMs : UInt64}
      {db : Db κ} {row row' : ExecutionRow} {stepStates : List (UInt64 × SharedStateBytes)}
      (hlive : e.host.live = some e.host.db.state)
      (hcommitted : Committed keys e.host.db e.host.db.state input next change)
      (haccepts : e.host.db.Accepts next) (hwrote : e.host.db.Wrote next nowMs change db)
      (hproduction : db.production = e.host.db.production ∨ ∀ id ∈ db.production, id ∉ others)
      (hrow : e.row.persistState next nowMs = .ok row)
      (hcolumns : e.Columns nowMs row change row' stepStates) :
      Moves keys others e ⟨e.host.record input next db, row', stepStates⟩

theorem persist_eq_ok {others : List ReceiptId} {expected : UInt64}
    {nowMs : UInt64} {db : Db κ} {row' : ExecutionRow}
    {stepStates : List (UInt64 × SharedStateBytes)}
    (h : e.persist others expected next change nowMs = .ok (db, row', stepStates)) :
    e.host.db.Accepts next ∧ e.host.db.Wrote next nowMs change db ∧
      (db.production = e.host.db.production ∨ ∀ id ∈ db.production, id ∉ others) ∧
      ∃ row, e.row.persistState next nowMs = .ok row ∧
        e.Columns nowMs row change row' stepStates := by
  simp only [persist, bind_eq_ok, ensure_eq_ok] at h
  obtain ⟨_, hpersist, _, hproduction, row, hrow, h⟩ := h
  obtain ⟨haccepts, hwrote⟩ := Db.persistInTransaction_wrote hpersist
  split at h
  · simp only [pure_eq_ok, Prod.mk.injEq] at h
    obtain ⟨rfl, rfl, rfl⟩ := h
    exact ⟨haccepts, hwrote, hproduction, row, hrow, .certified⟩
  · rename_i hchange
    simp only [pure_eq_ok, Prod.mk.injEq] at h
    obtain ⟨rfl, rfl, rfl⟩ := h
    exact ⟨haccepts, hwrote, hproduction, row, hrow, .same hchange⟩

theorem step_moves (hs : e.host.Sound keys) (others : List ReceiptId) (nowMs : UInt64)
    (input : Input) : e.Moves keys others (e.step keys others nowMs input) := by
  unfold step
  split
  · rename_i hproposes
    -- without a decision to write, the host takes the input quietly
    generalize hresult : (e.host.handle keys nowMs input).1 = host
    have hstep := e.host.handle_step keys nowMs input
    rw [hresult] at hstep
    cases hstep with
    | quiet live hlive =>
      refine .quiet live ?_
      rcases hlive with hlive | hlive | hlive
      · exact .inl hlive
      · rw [hlive]
        exact hs.live
      · exact .inr hlive
    | commit hlive hdecide hpersist => simp [Host.proposes, hlive, hdecide] at hproposes
  · rename_i s next change hproposes
    unfold Host.proposes at hproposes
    split at hproposes
    · cases hproposes
    rename_i s' hlive
    split at hproposes
    · rename_i next' change' result hdecide
      simp only [Option.some.injEq, Prod.mk.injEq] at hproposes
      obtain ⟨rfl, rfl, rfl⟩ := hproposes
      obtain rfl := hs.live_eq hlive
      split
      · rename_i db row stepStates hpersist
        obtain ⟨haccepts, hwrote, hproduction, row', hrow, hcolumns⟩ := persist_eq_ok hpersist
        exact .commit hlive (handle_commit hdecide) haccepts hwrote hproduction hrow hcolumns
      · exact .quiet _ (.inr rfl)
    · cases hproposes

theorem Columns.follows {nowMs : UInt64}
    {row row' : ExecutionRow} {stepStates : List (UInt64 × SharedStateBytes)}
    (hfollows : e.row.Follows keys.peerId e.host.db.state)
    (hsame : SameExecution e.host.db.state next) (hrow : e.row.persistState next nowMs = .ok row)
    (h : e.Columns nowMs row change row' stepStates) : row'.Follows keys.peerId next := by
  have hnext := hfollows.persistState hsame hrow
  cases h with
  | same hchange => exact hnext
  | certified =>
    exact { hnext with }

theorem Intact.moves {others : List ReceiptId} {e' : Execution κ} (h : e.Intact keys)
    (hmoves : e.Moves keys others e') : e'.Intact keys := by
  cases hmoves with
  | quiet live hlive =>
    exact { h with sound := { h.sound with live := hlive } }
  | @commit input next change nowMs db row row' stepStates hlive hcommitted haccepts hwrote
      hproduction hrow hcolumns =>
    have hsame := hcommitted.sameExecution
    have hversion : e.host.db.state.version ≤ next.version := UInt64.le_iff_toNat_le.2 hsame.version
    have hsound := (Host.Transition.commit hlive hcommitted haccepts.version
      hwrote.written).sound h.sound
    have hfollows := hcolumns.follows h.columns hsame hrow
    have hlast : row.lastStepAtMs = e.row.lastStepAtMs := by
      simp only [ExecutionRow.persistState, bind_eq_ok, pure_eq_ok] at hrow
      obtain ⟨_, -, _, -, _, -, rfl⟩ := hrow
      rfl
    have hcontributes := hcommitted.contributes h.sound.recoverable
    have hfiled := h.filed.wrote hcontributes haccepts hwrote
    have hkeep : ∀ row ∈ e.host.db.timers, row.Armed next.version :=
      fun row hr => (h.timers row hr).mono hversion
    have hpublished : ∀ {artifact : ReceiptArtifact κ},
        e.host.db.state.publishReceipt artifact = .ok next →
          next.status.publishedReceiptId = some artifact.receiptId := by
      intro artifact hpublish
      obtain ⟨-, status, v, hstatus, -, rfl⟩ := publishReceipt_eq_ok hpublish
      rcases publishedStatus_eq_ok hstatus with ⟨outcome, -, rfl⟩ | ⟨cause, -, rfl⟩ <;> rfl
    cases hwrote with
    | aggregate hchange =>
      have hcertifies : ∀ proposal, change ≠ .stepSignature (some proposal) := by
        rintro proposal rfl
        simp at hchange
      cases hcolumns with
      | certified => exact absurd rfl (hcertifies _)
      | same _ =>
        cases hcontributes with
        | aggregate _ hposition hstatus hkept =>
          exact ⟨hsound, hfiled, h.recorded, hkeep, h.stepStates, hfollows,
            hlast.trans h.lastStep, h.production.trans hstatus.symm⟩
        | dispatch | publish => simp at hchange
        | certify => exact absurd rfl (hcertifies _)
    | dispatch timers hfits htimers =>
      cases hcontributes with
      | aggregate hchange => simp at hchange
      | dispatch hposition hne hstatus heffects hevent =>
        cases hcolumns with
        | same _ =>
          refine ⟨hsound, hfiled, ?_, htimers.armed h.timers hversion hne, h.stepStates, hfollows,
            hlast.trans h.lastStep, ?_⟩
          · intro row hr
            rcases List.mem_append.1 hr with hr | hr
            · exact h.recorded row hr
            · obtain rfl := List.mem_singleton.1 hr
              exact ⟨⟨_, hevent hfits, rfl⟩, ⟨_, heffects, rfl⟩, rfl⟩
          · show e.host.db.production = next.status.publishedReceiptId
            rw [hstatus]
            exact h.production
    | certified timers hevent htimers =>
      cases hcontributes with
      | aggregate hchange => simp at hchange
      | certify hposition hne hrunning hstatus =>
        cases hcolumns with
        | same hchange => exact absurd rfl (hchange _)
        | certified =>
          refine ⟨hsound, hfiled, h.recorded, htimers.armed h.timers hversion hne, ?_, hfollows, ?_,
            ?_⟩
          · simpa [Host.record] using h.stepStates
          · simp [Host.record, Db.certifiedRow]
          · show e.host.db.production = next.status.publishedReceiptId
            rw [hstatus, h.production]
            exact ExecutionStatus.publishedReceiptId_of_running hrunning
    | published receipts hcodec hstores =>
      cases hcontributes with
      | aggregate hchange => simp at hchange
      | publish hassemble hpublish =>
        cases hcolumns with
        | same _ =>
          have hid := hpublished hpublish
          obtain ⟨-, status, v, -, -, rfl⟩ := publishReceipt_eq_ok hpublish
          exact ⟨hsound, hfiled, h.recorded, hkeep, h.stepStates, hfollows,
            hlast.trans h.lastStep, hid.symm⟩

end Execution

/-! ## The published receipt -/

theorem publishedStatus_evidence {artifact : ReceiptArtifact κ} {status : ExecutionStatus κ}
    (h : s.publishedStatus artifact = .ok status) :
    (artifact.body.header.terminal = .completed → ∃ outcome,
      Db.terminalOutcome status = some outcome ∧ artifact.body.outcome = outcome.borsh) ∧
    ∀ cause, artifact.body.header.terminal = .stopped cause → status.terminalCause = some cause := by
  unfold publishedStatus at h
  split at h
  · rename_i outcome hs hterminal
    simp only [bind_eq_ok, ensure_eq_ok, pure_eq_ok] at h
    obtain ⟨last, -, _, hbody, rfl⟩ := h
    exact ⟨fun _ => ⟨outcome, rfl, hbody.1⟩, fun cause hc => by simp [hterminal] at hc⟩
  · rename_i cause bodyCause hs hterminal
    simp only [bind_eq_ok, ensure_eq_ok, pure_eq_ok] at h
    obtain ⟨_, rfl, rfl⟩ := h
    refine ⟨fun hc => by simp [hterminal] at hc, fun cause' hc => ?_⟩
    rw [hterminal, ReceiptTermination.stopped.injEq] at hc
    rw [hc]
    rfl
  all_goals cases h

namespace Db

theorem Ledger.wrote_same {keys : HostKeys} {db db' : Db κ} {entries : List TraceEntry}
    (h : db.Ledger entries) (hrec : db.state.Recoverable)
    (hcommitted : Committed keys db db.state input next change)
    (hwrote : db.Wrote next nowMs change db')
    (hchange : ∀ proposal, change ≠ .stepSignature (some proposal)) : db'.Ledger entries := by
  obtain ⟨entries', hledger, hextends⟩ := h.committed hrec hcommitted hwrote.written
  cases hextends with
  | same _ => exact hledger
  | certified _ =>
    -- an entry more would need an agreed row more
    have hrows : db'.agreedSteps = db.agreedSteps := by
      cases hwrote with
      | certified => exact absurd rfl (hchange _)
      | _ => rfl
    have hlen := hledger.rows.length_eq
    have hlen' := h.rows.length_eq
    rw [hrows] at hlen
    simp only [List.length_append, List.length_singleton] at hlen
    omega

variable {receipt : ReceiptArtifact κ}

theorem Publishes.wrote {keys : HostKeys} {db db' : Db κ}
    (h : db.Publishes receipt) (hrec : db.state.Recoverable)
    (hcommitted : Committed keys db db.state input next change)
    (hwrote : db.Wrote next nowMs change db')
    (hchange : ∀ proposal, change ≠ .stepSignature (some proposal))
    (hstatus : next.status = db.state.status) : db'.Publishes receipt := by
  have hstate := hwrote.written.state
  refine ⟨?_, h.ledger.wrote_same hrec hcommitted hwrote hchange, ?_, ?_⟩
  · rw [hstate, hcommitted.sameExecution.binding]
    exact h.activation
  · rw [hstate, hstatus]
    exact h.completed
  · rw [hstate, hstatus]
    exact h.stopped

theorem publishes_assembled {keys : HostKeys} {db db' : Db κ} {artifact : ReceiptArtifact κ}
    {entries : List TraceEntry} (h : db.Ledger entries) (hrec : db.state.Recoverable)
    (hactivation : db.activation = db.state.binding.activation)
    (hcommitted : Committed keys db db.state input next (.publish artifact))
    (hwrote : db.Wrote next nowMs (.publish artifact) db')
    (hassemble : db.assembleReceipt db.state = .ok artifact)
    (hpublish : db.state.publishReceipt artifact = .ok next) : db'.Publishes artifact := by
  have hstate := hwrote.written.state
  have hledger := h.wrote_same hrec hcommitted hwrote (by simp)
  obtain ⟨termination, -, hbody⟩ := h.assembleReceipt_eq_ok hassemble
  obtain ⟨-, status, v, hstatus, -, hnext⟩ := publishReceipt_eq_ok hpublish
  have hevidence := publishedStatus_evidence hstatus
  refine ⟨?_, ?_, ?_, ?_⟩
  · rw [hstate, hcommitted.sameExecution.binding, hbody]
    exact hactivation
  · rw [hbody]
    exact hledger
  · rw [hstate, hnext]
    exact hevidence.1
  · rw [hstate, hnext]
    exact hevidence.2

def ReadsBack (receipt : ReceiptArtifact κ) : Prop :=
  ∃ bytes, receipt.encode = .ok bytes ∧ ReceiptArtifact.decode bytes = .ok receipt

variable {receipts receipts' : List (ReceiptArtifact κ)}

theorem Stores.find_self (h : Stores receipts receipt receipts') (hcodec : ReadsBack receipt)
    (hstored : ∀ row ∈ receipts, ReadsBack row) :
    receipts'.find? (·.receiptId = receipt.receiptId) = some receipt := by
  cases h with
  | added hnew =>
    have hnone : receipts.find? (·.receiptId = receipt.receiptId) = none := by
      simpa using hnew
    simp [List.find?_append, hnone]
  | present hrow hencode =>
    obtain ⟨bytes, hbytes, hdecode⟩ := hcodec
    obtain ⟨bytes', hbytes', hdecode'⟩ := hstored _ (List.mem_of_find?_eq_some hrow)
    rw [hencode, hbytes] at hbytes'
    obtain rfl := Except.ok.inj hbytes'
    rw [hdecode] at hdecode'
    rw [hrow, Except.ok.inj hdecode']

theorem Stores.find_old {old : ReceiptArtifact κ} {id : ReceiptId}
    (h : Stores receipts receipt receipts') (hold : receipts.find? (·.receiptId = id) = some old) :
    receipts'.find? (·.receiptId = id) = some old := by
  cases h with
  | added hnew => simp [List.find?_append, hold]
  | present hrow hencode => exact hold

theorem Stores.mem {row : ReceiptArtifact κ} (h : Stores receipts receipt receipts')
    (hrow : row ∈ receipts') : row ∈ receipts ∨ row = receipt := by
  cases h with
  | added hnew => simpa using hrow
  | present _ hencode => exact .inl hrow

theorem Stores.subset (h : Stores receipts receipt receipts') : receipts ⊆ receipts' := by
  cases h with
  | added hnew => exact List.subset_append_left _ _
  | present _ hencode => exact List.Subset.refl _

theorem Stores.readsBack (h : Stores receipts receipt receipts') (hcodec : ReadsBack receipt)
    (hstored : ∀ row ∈ receipts, ReadsBack row) : ∀ row ∈ receipts', ReadsBack row := by
  intro row hrow
  rcases h.mem hrow with hold | rfl
  · exact hstored row hold
  · exact hcodec

end Db

/-! ## The database -/

namespace Database

/-- The receipt an execution published is stored and holds its evidence. -/
def Holds (receipts : List (ReceiptArtifact κ)) (e : Execution κ) : Prop :=
  ∀ receiptId, e.host.db.state.status.publishedReceiptId = some receiptId → ∃ receipt,
    receipts.find? (·.receiptId = receiptId) = some receipt ∧ e.host.db.Publishes receipt

/-- What holds of a database between two actions. -/
structure Intact (keys : HostKeys) (d : Database κ) : Prop where
  hostId : d.hostId = keys.peerId
  execution : ∀ id e, d.executions.get? id = some e → e.Intact keys
  executionId : ∀ id e, d.executions.get? id = some e → e.host.db.state.executionId = id
  holds : ∀ id e, d.executions.get? id = some e → Holds d.receipts e
  producer : ∀ id id' e e' receiptId, d.executions.get? id = some e →
    d.executions.get? id' = some e' → e.host.db.production = some receiptId →
    e'.host.db.production = some receiptId → id = id'
  sessions : ∀ id id' e e', d.executions.get? id = some e → d.executions.get? id' = some e' →
    e.host.db.state.binding.sessionId = e'.host.db.state.binding.sessionId → id = id'
  readsBack : ∀ row ∈ d.receipts, Db.ReadsBack row
  provenance : ∀ row ∈ d.receipts, row.receiptId ∈ d.imports ∨ ∃ id e,
    d.executions.get? id = some e ∧ e.host.db.production = some row.receiptId
  imported : ∀ receiptId ∈ d.imports, ∃ row ∈ d.receipts, row.receiptId = receiptId

theorem intact_empty (keys : HostKeys) : (empty keys.peerId : Database κ).Intact keys where
  hostId := rfl
  execution _ _ h := nomatch h
  executionId _ _ h := nomatch h
  holds _ _ h := nomatch h
  producer _ _ _ _ _ h := nomatch h
  sessions _ _ _ _ h := nomatch h
  readsBack _ h := nomatch h
  provenance _ h := nomatch h
  imported _ h := nomatch h

variable {keys : HostKeys} {d : Database κ} {receipts : List (ReceiptArtifact κ)}

theorem Intact.write (h : d.Intact keys) {id : ExecId} {e : Execution κ} (he : e.Intact keys)
    (hid : e.host.db.state.executionId = id) (hholds : Holds receipts e)
    (hold : ∀ receiptId receipt, d.receipts.find? (·.receiptId = receiptId) = some receipt →
      receipts.find? (·.receiptId = receiptId) = some receipt)
    (hproducer : ∀ id' e' receiptId, id' ≠ id → d.executions.get? id' = some e' →
      e'.host.db.production = some receiptId → e.host.db.production ≠ some receiptId)
    (hsession : ∀ id' e', id' ≠ id → d.executions.get? id' = some e' →
      e'.host.db.state.binding.sessionId ≠ e.host.db.state.binding.sessionId)
    (hreads : ∀ row ∈ receipts, Db.ReadsBack row)
    (hproduced : ∀ row ∈ receipts, row ∈ d.receipts ∨
      e.host.db.production = some row.receiptId)
    (hkept : ∀ e' receiptId, d.executions.get? id = some e' →
      e'.host.db.production = some receiptId → e.host.db.production = some receiptId) :
    ({ d with executions := d.executions.insert id e, receipts := receipts } :
      Database κ).Intact keys := by
  -- an execution of the new database is the written one or an old one
  have hget := @OrdMap.get?_insert_cases _ _ _ d.executions id e
  refine ⟨h.hostId, ?_, ?_, ?_, ?_, ?_, hreads, ?_, ?_⟩
  · intro id' e' hget'
    rcases hget hget' with ⟨-, rfl⟩ | ⟨-, hget'⟩
    · exact he
    · exact h.execution id' e' hget'
  · intro id' e' hget'
    rcases hget hget' with ⟨rfl, rfl⟩ | ⟨-, hget'⟩
    · exact hid
    · exact h.executionId id' e' hget'
  · intro id' e' hget'
    rcases hget hget' with ⟨-, rfl⟩ | ⟨-, hget'⟩
    · exact hholds
    · intro receiptId hpublished
      obtain ⟨receipt, hfind, hpublishes⟩ := h.holds id' e' hget' receiptId hpublished
      exact ⟨receipt, hold receiptId receipt hfind, hpublishes⟩
  · intro id' id'' e' e'' receiptId hget' hget'' hprod' hprod''
    rcases hget hget' with ⟨rfl, rfl⟩ | ⟨hne', hold'⟩
    · rcases hget hget'' with ⟨rfl, -⟩ | ⟨hne'', hold''⟩
      · rfl
      · exact absurd hprod' (hproducer id'' e'' receiptId hne'' hold'' hprod'')
    · rcases hget hget'' with ⟨rfl, rfl⟩ | ⟨-, hold''⟩
      · exact absurd hprod'' (hproducer id' e' receiptId hne' hold' hprod')
      · exact h.producer id' id'' e' e'' receiptId hold' hold'' hprod' hprod''
  · intro id' id'' e' e'' hget' hget'' heq
    rcases hget hget' with ⟨rfl, rfl⟩ | ⟨hne', hold'⟩
    · rcases hget hget'' with ⟨rfl, -⟩ | ⟨hne'', hold''⟩
      · rfl
      · exact absurd heq.symm (hsession id'' e'' hne'' hold'')
    · rcases hget hget'' with ⟨rfl, rfl⟩ | ⟨-, hold''⟩
      · exact absurd heq (hsession id' e' hne' hold')
      · exact h.sessions id' id'' e' e'' hold' hold'' heq
  · intro row hrow
    have hself : e.host.db.production = some row.receiptId → ∃ id' e',
        (d.executions.insert id e).get? id' = some e' ∧
          e'.host.db.production = some row.receiptId :=
      fun hprod => ⟨id, e, OrdMap.get?_insert_self _ _ _, hprod⟩
    rcases hproduced row hrow with hmem | hprod
    · rcases h.provenance row hmem with himported | ⟨id', e', hget', hprod'⟩
      · exact .inl himported
      · by_cases heq : id' = id
        · subst heq
          exact .inr (hself (hkept e' row.receiptId hget' hprod'))
        · exact .inr ⟨id', e', (OrdMap.get?_insert_of_ne _ _ heq).trans hget', hprod'⟩
    · exact .inr (hself hprod)
  · intro receiptId himported
    obtain ⟨row, hrow, rfl⟩ := h.imported receiptId himported
    obtain ⟨receipt, hfind⟩ : ∃ receipt,
        d.receipts.find? (·.receiptId = row.receiptId) = some receipt := by
      rw [← Option.isSome_iff_exists, List.find?_isSome]
      exact ⟨row, hrow, by simp⟩
    have hfind' := hold row.receiptId receipt hfind
    exact ⟨receipt, List.mem_of_find?_eq_some hfind', by simpa using List.find?_some hfind'⟩

variable {nowMs : UInt64}

theorem intact_created {executionId : ExecId}
    {activation : Activation κ} {producer : PeerId} {sharedState : SharedStateBytes}
    {localState : LocalStateBytes} {db : Db κ} {row : ExecutionRow}
    (hcreate : Db.create keys.peerId receipts executionId activation producer
      sharedState localState nowMs = .ok db)
    (hrow : ExecutionRow.insertExecution keys.peerId db.state nowMs = .ok row) :
    (⟨.initial db, row, []⟩ : Execution κ).Intact keys ∧ db.state.executionId = executionId ∧
      db.production = none ∧ db.state.status = .activating := by
  have hcreated : Host.Created keys db := ⟨_, _, _, _, _, _, _, hcreate⟩
  have hfollows := ExecutionRow.insertExecution_follows hrow
  have hlast : row.lastStepAtMs = none := by
    simp only [ExecutionRow.insertExecution, bind_eq_ok, pure_eq_ok] at hrow
    obtain ⟨_, -, _, -, _, -, rfl⟩ := hrow
    rfl
  simp only [Db.create, ExecutionState.new, bind_eq_ok, mapError_eq_ok, ensure_eq_ok,
    pure_eq_ok] at hcreate
  obtain ⟨_, ⟨_, -, _, -, _, -, _, -, _, -, rfl⟩, _, -, _, -, _, -, _, -, _, -, _, -, _, -, _, -,
    rfl⟩ := hcreate
  exact ⟨⟨hcreated.sound, hcreated.filed, by simp [Host.initial], by simp [Host.initial], rfl,
    hfollows, hlast, rfl⟩, rfl, rfl, rfl⟩

theorem Intact.createExecution (h : d.Intact keys) {executionId : ExecId}
    {activation : Activation κ} {producer : PeerId} {sharedState : SharedStateBytes}
    {localState : LocalStateBytes}
    (hcreate : d.createExecution executionId activation producer sharedState localState nowMs
      = .ok d') : d'.Intact keys := by
  simp only [Database.createExecution, bind_eq_ok] at hcreate
  obtain ⟨db, hdb, hcreate⟩ := hcreate
  rw [h.hostId] at hdb
  split at hcreate
  · cases hcreate
    exact h
  · rename_i hnone
    simp only [bind_eq_ok, pure_eq_ok, ensure_eq_ok] at hcreate
    obtain ⟨_, hsession, row, hrow, rfl⟩ := hcreate
    rw [h.hostId] at hrow
    obtain ⟨he, hid, hproduction, hstatus⟩ := intact_created hdb hrow
    refine h.write he hid ?_ (fun _ _ hfind => hfind) ?_ ?_ h.readsBack (fun _ hmem => .inl hmem) ?_
    · intro receiptId hpublished
      simp [Host.initial, hstatus, ExecutionStatus.publishedReceiptId] at hpublished
    · intro id' e' receiptId _ _ _
      simp [Host.initial, hproduction]
    · intro id' e' _ hget'
      rw [← (h.execution id' e' hget').columns.sessionId]
      exact hsession _ ((d.executions.mem_entries_iff id' e').2 hget')
    · intro e' receiptId hget'
      rw [hnone] at hget'
      cases hget'

/-! ### One input -/

section Actor

variable {keys : HostKeys} {others : List ReceiptId} {e e' : Execution κ}

theorem sameExecution_of_moves (h : e.Moves keys others e') :
    SameExecution e.host.db.state e'.host.db.state := by
  cases h with
  | quiet live hlive => exact .refl _
  | @commit input next change nowMs db row row' stepStates hlive hcommitted haccepts hwrote =>
    show SameExecution e.host.db.state db.state
    rw [hwrote.written.state]
    exact hcommitted.sameExecution

theorem production_of_moves (h : e.Moves keys others e') :
    e'.host.db.production = e.host.db.production ∨
      ∀ id ∈ e'.host.db.production, id ∉ others := by
  cases h with
  | quiet live hlive => exact .inl rfl
  | commit hlive hcommitted haccepts hwrote hproduction => exact hproduction

theorem production_kept (he : e.Intact keys) {receiptId : ReceiptId}
    (hproduction : e.host.db.production = some receiptId) (h : e.Moves keys others e') :
    e'.host.db.production = some receiptId := by
  cases h with
  | quiet live hlive => exact hproduction
  | commit hlive hcommitted haccepts hwrote =>
    cases hwrote with
    | published receipts hcodec hstores =>
      -- a published status refuses a second publication
      cases hcommitted.contributes he.sound.recoverable with
      | aggregate hchange => simp at hchange
      | publish hassemble hpublish =>
        rw [he.production] at hproduction
        obtain ⟨-, status, v, hstatus, -, -⟩ := publishReceipt_eq_ok hpublish
        rcases publishedStatus_eq_ok hstatus with ⟨outcome, hs, -⟩ | ⟨cause, hs, -⟩
        all_goals
          rw [hs] at hproduction
          cases hproduction
    | _ => exact hproduction

theorem receipts_of_moves (h : e.Moves keys others e') :
    e'.host.db.receipts = e.host.db.receipts ∨ ∃ artifact, Db.ReadsBack artifact ∧
      Db.Stores e.host.db.receipts artifact e'.host.db.receipts ∧
      e'.host.db.production = some artifact.receiptId := by
  cases h with
  | quiet live hlive => exact .inl rfl
  | commit hlive hcommitted haccepts hwrote =>
    cases hwrote with
    | published receipts hcodec hstores => exact .inr ⟨_, hcodec, hstores, rfl⟩
    | _ => exact .inl rfl

theorem holds_of_moves (he : e.Intact keys) (h : Holds e.host.db.receipts e)
    (hreads : ∀ row ∈ e.host.db.receipts, Db.ReadsBack row) (hmoves : e.Moves keys others e') :
    Holds e'.host.db.receipts e' := by
  cases hmoves with
  | quiet live hlive => exact h
  | @commit input next change nowMs db row row' stepStates hlive hcommitted haccepts hwrote =>
    have hrec := he.sound.recoverable
    have hstate := hwrote.written.state
    intro receiptId hpublished
    have hnext : next.status.publishedReceiptId = some receiptId := by
      rw [← hstate]
      exact hpublished
    -- a published status that is kept keeps its receipt
    have hkept : e.host.db.state.status.publishedReceiptId = some receiptId →
        next.status = e.host.db.state.status → db.receipts = e.host.db.receipts →
        (∀ proposal, change ≠ .stepSignature (some proposal)) → ∃ receipt,
          db.receipts.find? (·.receiptId = receiptId) = some receipt ∧ db.Publishes receipt := by
      intro hold hstatus hreceipts hchange
      obtain ⟨receipt, hfind, hpublishes⟩ := h receiptId hold
      rw [hreceipts]
      exact ⟨receipt, hfind, hpublishes.wrote hrec hcommitted hwrote hchange hstatus⟩
    cases hcommitted.contributes hrec with
    | aggregate hchange hposition hstatus hkeep =>
      rw [hstatus] at hnext
      refine hkept hnext (hkeep (by rw [hnext]; rfl)) ?_ ?_
      · cases hwrote with
        | published => simp at hchange
        | _ => rfl
      · rintro proposal rfl
        simp at hchange
    | dispatch hposition hversion hstatus heffects hevent =>
      rw [hstatus] at hnext
      refine hkept hnext hstatus ?_ (by simp)
      cases hwrote with
      | aggregate hchange => simp at hchange
      | dispatch => rfl
    | certify hposition hversion hrunning hstatus =>
      rw [hstatus] at hnext
      cases hnext
    | @publish artifact hassemble hpublish =>
      obtain ⟨entries, hledger⟩ := he.sound.ledger
      have hpublishes := Db.publishes_assembled hledger hrec he.sound.activation hcommitted hwrote
        hassemble hpublish
      have hid : artifact.receiptId = receiptId := by
        obtain ⟨-, status, v, hstatus, -, rfl⟩ := publishReceipt_eq_ok hpublish
        rcases publishedStatus_eq_ok hstatus with ⟨outcome, -, rfl⟩ | ⟨cause, -, rfl⟩
        all_goals exact Option.some.inj hnext
      subst hid
      cases hwrote with
      | aggregate hchange => simp at hchange
      | published receipts hcodec hstores =>
        exact ⟨artifact, hstores.find_self hcodec hreads, hpublishes⟩

theorem Holds.withReceipts (h : Holds receipts e) : Holds receipts (e.withReceipts receipts) := by
  intro receiptId hpublished
  obtain ⟨receipt, hfind, hpublishes⟩ := h receiptId hpublished
  exact ⟨receipt, hfind, { hpublishes with ledger := { hpublishes.ledger with } }⟩

end Actor

theorem Intact.actor (h : d.Intact keys) (executionId : ExecId) (nowMs : UInt64) (input : Input) :
    (d.actor keys executionId nowMs input).Intact keys := by
  unfold Database.actor
  split
  · exact h
  rename_i e hget
  have he := (h.execution executionId e hget).withReceipts d.receipts
  have hholds := (h.holds executionId e hget).withReceipts
  have hmoves := Execution.step_moves he.sound (d.producedByOthers executionId) nowMs input
  have hsame := sameExecution_of_moves hmoves
  refine h.write (he.moves hmoves) ?_ (holds_of_moves he hholds h.readsBack hmoves) ?_ ?_ ?_ ?_ ?_ ?_
  · exact hsame.executionId.trans (h.executionId executionId e hget)
  · intro receiptId receipt hfind
    rcases receipts_of_moves hmoves with hsame | ⟨artifact, -, hstores, -⟩
    · rw [hsame]
      exact hfind
    · exact hstores.find_old hfind
  · intro id' e' receiptId hne hget' hprod' hprod
    rcases production_of_moves hmoves with hsame | hother
    · rw [hsame] at hprod
      exact hne (h.producer id' executionId e' e receiptId hget' hget hprod' hprod)
    · refine hother receiptId hprod ?_
      refine List.mem_filterMap.2 ⟨(id', e'), (d.executions.mem_entries_iff id' e').2 hget', ?_⟩
      simpa [hne] using hprod'
  · intro id' e' hne hget' heq
    rw [hsame.binding] at heq
    exact hne (h.sessions id' executionId e' e hget' hget heq)
  · rcases receipts_of_moves hmoves with hsame | ⟨artifact, hreads, hstores, -⟩
    · rw [hsame]
      exact h.readsBack
    · exact hstores.readsBack hreads h.readsBack
  · intro row hrow
    rcases receipts_of_moves hmoves with hsame | ⟨artifact, -, hstores, hprod⟩
    · rw [hsame] at hrow
      exact .inl hrow
    · rcases hstores.mem hrow with hold | rfl
      · exact .inl hold
      · exact .inr hprod
  · intro e' receiptId hget' hprod'
    obtain rfl := Option.some.inj (hget.symm.trans hget')
    exact production_kept he hprod' hmoves

/-! ### Imports -/

theorem importReceipt_eq_ok {receipt : ReceiptArtifact κ}
    {outcome : ReceiptImportOutcome} (h : d.importReceipt receipt nowMs = .ok (d', outcome)) :
    Db.ReadsBack receipt ∧ ∃ receipts, Db.Stores d.receipts receipt receipts ∧
      (receipt.receiptId ∈ d.imports ∧ d' = { d with receipts := receipts } ∨
        nowMs.toNat < 2 ^ 63 ∧
          d' = { d with receipts := receipts, imports := d.imports ++ [receipt.receiptId] }) := by
  simp only [importReceipt, bind_eq_ok] at h
  obtain ⟨stored, -, _, -, receipts, hreceipts, h⟩ := h
  obtain ⟨hcodec, hstores⟩ := Db.insertArtifactRow_eq_ok hreceipts
  refine ⟨hcodec, receipts, hstores, ?_⟩
  split at h
  · rename_i himported
    cases h
    exact .inl ⟨by simpa using himported, rfl⟩
  · simp only [bind_eq_ok, pure_eq_ok, sqliteU64, ensure_eq_ok] at h
    obtain ⟨_, hnow, heq⟩ := h
    exact .inr ⟨hnow, (Prod.mk.inj heq).1.symm⟩

theorem Intact.importReceipt (h : d.Intact keys) {receipt : ReceiptArtifact κ}
    {outcome : ReceiptImportOutcome} (himport : d.importReceipt receipt nowMs = .ok (d', outcome)) :
    d'.Intact keys := by
  obtain ⟨hcodec, receipts, hstores, hd'⟩ := importReceipt_eq_ok himport
  obtain ⟨imports, rfl, hmem, hold⟩ : ∃ imports,
      d' = { d with receipts := receipts, imports := imports } ∧ receipt.receiptId ∈ imports ∧
        ∀ receiptId, receiptId ∈ imports ↔ receiptId ∈ d.imports ∨
          receiptId = receipt.receiptId := by
    rcases hd' with ⟨hmem, rfl⟩ | ⟨-, rfl⟩
    · exact ⟨d.imports, rfl, hmem, fun receiptId => ⟨.inl, fun h => h.elim id fun h => h ▸ hmem⟩⟩
    · exact ⟨_, rfl, by simp, by simp⟩
  have hself := hstores.find_self hcodec h.readsBack
  refine ⟨h.hostId, h.execution, h.executionId, ?_, h.producer, h.sessions,
    hstores.readsBack hcodec h.readsBack, ?_, ?_⟩
  · intro id e hget receiptId hpublished
    obtain ⟨row, hfind, hpublishes⟩ := h.holds id e hget receiptId hpublished
    exact ⟨row, hstores.find_old hfind, hpublishes⟩
  · intro row hrow
    rcases hstores.mem hrow with hrow | rfl
    · exact (h.provenance row hrow).imp (fun hrow => (hold _).2 (.inl hrow)) id
    · exact .inl hmem
  · intro receiptId himported
    rcases (hold receiptId).1 himported with himported | rfl
    · obtain ⟨row, hrow, rfl⟩ := h.imported receiptId himported
      exact ⟨row, hstores.subset hrow, rfl⟩
    · exact ⟨receipt, List.mem_of_find?_eq_some hself, rfl⟩

theorem Intact.step (h : d.Intact keys) (action : StoreAction κ) :
    (d.step keys action).Intact keys := by
  cases action with
  | createExecution executionId activation producer sharedState localState nowMs =>
    simp only [Database.step]
    split
    · rename_i next hnext
      exact h.createExecution hnext
    · exact h
  | actor executionId nowMs input => exact h.actor executionId nowMs input
  | importReceipt receipt nowMs =>
    simp only [Database.step]
    split
    · rename_i himport
      exact h.importReceipt himport
    · exact h

/-- Every database that a run writes is intact. -/
theorem Intact.run (h : d.Intact keys) (actions : List (StoreAction κ)) :
    (d.run keys actions).Intact keys := by
  induction actions generalizing d with
  | nil => exact h
  | cons action actions ih => exact ih (h.step action)

end Database

end Arena0
