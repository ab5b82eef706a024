import Arena0.Store

/-!
# What a transaction writes

Each statement of a transaction inverted once: an accepted transaction replaces
the aggregate and, depending on the change, appends one event record or one
agreed row, arms and consumes timers, or stores the published artifact.
-/

namespace Arena0

open Borsh Fallible

variable {κ : Primitives} {receipt : ReceiptArtifact κ}

/-! ## Timers -/

structure TimerRow.ArmedAt (version : UInt64) (row : TimerRow) : Prop where
  version_eq : row.armedVersion = version
  length_le : row.payload.length ≤ maxTimerRecordBytes
  payload : ∃ timer, TimerPayload.codec.fits timer = true ∧
    row.payload = TimerPayload.codec.encode timer

def TimersFrom (old : List TimerRow) (version : UInt64) (timers : List TimerRow) : Prop :=
  ∀ row ∈ timers, row ∈ old ∨ row.ArmedAt version

theorem TimersFrom.refl (old : List TimerRow) (version : UInt64) : TimersFrom old version old :=
  fun _ hrow => .inl hrow

theorem TimersFrom.trans {old mid timers : List TimerRow} {version : UInt64}
    (h : TimersFrom old version mid) (h' : TimersFrom mid version timers) :
    TimersFrom old version timers := by
  intro row hrow
  rcases h' row hrow with hrow | harmed
  · exact h row hrow
  · exact .inr harmed

namespace Db

variable {db db' : Db κ} {nowMs : UInt64}

theorem persistTimer_eq_ok {eventPosition version : UInt64} {ordinal : UInt32} {delayMs : UInt64}
    {timer : TimerPayload}
    (h : db.persistTimer eventPosition version ordinal delayMs timer nowMs = .ok db') :
    ∃ timers, TimersFrom db.timers version timers ∧ db' = { db with timers := timers } := by
  simp only [persistTimer, encodeBorsh, bind_eq_ok, okOr_eq_ok, ensure_eq_ok,
    Codec.toVec_eq_some_iff] at h
  obtain ⟨deadline, -, payload, ⟨hfits, rfl⟩, _, hlength, h⟩ := h
  split at h
  · simp only [bind_eq_ok, pure_eq_ok] at h
    obtain ⟨_, -, rfl⟩ := h
    exact ⟨db.timers, .refl _ _, rfl⟩
  · simp only [bind_eq_ok, pure_eq_ok] at h
    obtain ⟨_, -, _, -, _, -, rfl⟩ := h
    refine ⟨_, fun row hrow => ?_, rfl⟩
    rcases List.mem_append.1 hrow with hrow | hrow
    · exact .inl hrow
    · obtain rfl := List.mem_singleton.1 hrow
      exact .inr ⟨rfl, hlength, timer, hfits, rfl⟩

theorem persistEffects_eq_ok {eventPosition version : UInt64} {effects : List (UInt32 × Effect)}
    (h : db.persistEffects eventPosition version nowMs effects = .ok db') :
    ∃ timers, TimersFrom db.timers version timers ∧ db' = { db with timers := timers } := by
  induction effects generalizing db with
  | nil =>
    obtain rfl := Except.ok.inj h
    exact ⟨db.timers, .refl _ _, rfl⟩
  | cons p effects ih =>
    obtain ⟨ordinal, effect⟩ := p
    cases effect with
    | setTimer delayMs timer =>
      simp only [persistEffects, bind_eq_ok] at h
      obtain ⟨mid, hmid, h⟩ := h
      obtain ⟨timers, hfrom, rfl⟩ := persistTimer_eq_ok hmid
      obtain ⟨timers', hfrom', rfl⟩ := ih h
      exact ⟨timers', hfrom.trans hfrom', rfl⟩
    | _ => exact ih h

theorem consumeTimer_eq_ok {timerId : TimerId} (h : db.consumeTimer timerId = .ok db')
    (version : UInt64) :
    ∃ timers, TimersFrom db.timers version timers ∧ db' = { db with timers := timers } := by
  simp only [consumeTimer, bind_eq_ok, pure_eq_ok] at h
  obtain ⟨_, -, rfl⟩ := h
  exact ⟨_, fun row hrow => .inl (List.mem_filter.1 hrow).1, rfl⟩

/-! ## Records -/

def eventRow (κ : Primitives) (position : UInt64) (event : Event) (effects : List Effect) :
    EventRow :=
  ⟨position, Event.codec.encode event, effectsCodec.encode effects,
    dispatchDigest κ (Event.codec.encode event) (effectsCodec.encode effects)⟩

theorem insertEventRecord_eq_ok {eventPosition : UInt64} {event : Event} {effects : List Effect}
    (h : db.insertEventRecord eventPosition event effects = .ok db') :
    Event.codec.fits event = true ∧
      db' = { db with events := db.events ++ [eventRow κ eventPosition event effects] } := by
  simp only [insertEventRecord, encodeBorsh, bind_eq_ok, okOr_eq_ok, Codec.toVec_eq_some_iff,
    pure_eq_ok] at h
  obtain ⟨bytes, ⟨hfits, rfl⟩, _, ⟨-, rfl⟩, _, -, _, -, rfl⟩ := h
  exact ⟨hfits, rfl⟩

def certifiedRow (proposal : SharedProposal κ) (version nowMs : UInt64) : AgreedRow :=
  ⟨proposal.entry.step, proposal.eventPosition, version, TraceEntry.codec.encode proposal.entry,
    proposal.entry.entryHash κ, nowMs, proposal.entry.postState⟩

theorem commitStagedEvent_eq_ok {proposal : SharedProposal κ} {version : UInt64}
    (h : db.commitStagedEvent proposal version nowMs = .ok db') :
    (∃ row ∈ db.events, row.eventPosition = proposal.eventPosition) ∧ ∃ timers,
      TimersFrom db.timers version timers ∧ db' = { db with
        agreedSteps := db.agreedSteps ++ [certifiedRow proposal version nowMs]
        timers := timers } := by
  simp only [commitStagedEvent, insertAgreedStep, encodeBorsh, bind_eq_ok, ensure_eq_ok, okOr_eq_ok,
    Codec.toVec_eq_some_iff, pure_eq_ok] at h
  obtain ⟨_, -, _, hevent, _, ⟨_, ⟨-, rfl⟩, _, -, _, -, _, -, _, -, _, -, rfl⟩, heffects⟩ := h
  obtain ⟨timers, hfrom, rfl⟩ := persistEffects_eq_ok heffects
  exact ⟨hevent, timers, hfrom, rfl⟩

/-! ## Artifacts -/

/-- The artifact is stored: it is new, or a stored one has its identity and encoding. -/
inductive Stores (receipts : List (ReceiptArtifact κ)) (receipt : ReceiptArtifact κ) :
    List (ReceiptArtifact κ) → Prop
  | added (hnew : ∀ row ∈ receipts, row.receiptId ≠ receipt.receiptId) :
      Stores receipts receipt (receipts ++ [receipt])
  | present {row : ReceiptArtifact κ}
      (hrow : receipts.find? (·.receiptId = receipt.receiptId) = some row)
      (hencode : row.encode = receipt.encode) : Stores receipts receipt receipts

theorem insertArtifactRow_eq_ok {receipts receipts' : List (ReceiptArtifact κ)}
    (h : insertArtifactRow receipts receipt nowMs = .ok receipts') :
    (∃ bytes, receipt.encode = .ok bytes ∧ ReceiptArtifact.decode bytes = .ok receipt) ∧
      Stores receipts receipt receipts' := by
  simp only [insertArtifactRow, bind_eq_ok, mapError_eq_ok, ensure_eq_ok] at h
  obtain ⟨bytes, hencode, _, hdecode, _, rfl, h⟩ := h
  refine ⟨⟨bytes, hencode, hdecode⟩, ?_⟩
  split at h
  · rename_i row hrow
    simp only [bind_eq_ok, mapError_eq_ok, ensure_eq_ok, pure_eq_ok] at h
    obtain ⟨payload, hpayload, _, ⟨rfl, -⟩, rfl⟩ := h
    exact .present hrow (hpayload.trans hencode.symm)
  · rename_i hnone
    simp only [bind_eq_ok, pure_eq_ok] at h
    obtain ⟨_, -, _, -, rfl⟩ := h
    exact .added (by simpa using List.find?_eq_none.1 hnone)

theorem insertArtifact_eq_ok (h : db.insertArtifact receipt nowMs = .ok db') :
    (∃ bytes, receipt.encode = .ok bytes ∧ ReceiptArtifact.decode bytes = .ok receipt) ∧
      ∃ receipts, Stores db.receipts receipt receipts ∧
        db' = { db with receipts := receipts } := by
  simp only [insertArtifact, bind_eq_ok, pure_eq_ok] at h
  obtain ⟨receipts, hrow, rfl⟩ := h
  obtain ⟨hcodec, hstores⟩ := insertArtifactRow_eq_ok hrow
  exact ⟨hcodec, receipts, hstores, rfl⟩

theorem persistTerminalPublication_eq_ok
    (h : db.persistTerminalPublication receipt nowMs = .ok db') :
    (∃ bytes, receipt.encode = .ok bytes ∧ ReceiptArtifact.decode bytes = .ok receipt) ∧
      ∃ receipts, Stores db.receipts receipt receipts ∧
        db' = { db with receipts := receipts, production := some receipt.receiptId } := by
  simp only [persistTerminalPublication, bind_eq_ok] at h
  obtain ⟨mid, hmid, h⟩ := h
  obtain ⟨hcodec, receipts, hstores, rfl⟩ := insertArtifact_eq_ok hmid
  refine ⟨hcodec, receipts, hstores, ?_⟩
  split at h
  · rename_i published hpublished
    simp only [bind_eq_ok, ensure_eq_ok, pure_eq_ok] at h
    obtain ⟨_, rfl, rfl⟩ := h
    have hproduction : db.production = some receipt.receiptId := hpublished
    rw [← hproduction]
  · exact (pure_eq_ok.1 h).symm

/-! ## The transaction -/

inductive Wrote (db : Db κ) (next : ExecutionState κ) (nowMs : UInt64) : Change κ → Db κ → Prop
  | aggregate {change : Change κ} (hchange : change = .state ∨ change = .stepSignature none) :
      Wrote db next nowMs change { db with state := next }
  | dispatch {event : Event} {effects : List Effect} {timerId : Option TimerId}
      (timers : List TimerRow) (hfits : Event.codec.fits event = true)
      (htimers : TimersFrom db.timers next.version timers) :
      Wrote db next nowMs (.dispatch event effects timerId) { db with
        state := next
        events := db.events ++ [eventRow κ (next.eventPosition - 1) event effects]
        timers }
  | certified {proposal : SharedProposal κ} (timers : List TimerRow)
      (hevent : ∃ row ∈ db.events, row.eventPosition = proposal.eventPosition)
      (htimers : TimersFrom db.timers next.version timers) :
      Wrote db next nowMs (.stepSignature (some proposal)) { db with
        state := next
        agreedSteps := db.agreedSteps ++ [certifiedRow proposal next.version nowMs]
        timers }
  | published {artifact : ReceiptArtifact κ} (receipts : List (ReceiptArtifact κ))
      (hcodec : ∃ bytes, artifact.encode = .ok bytes ∧
        ReceiptArtifact.decode bytes = .ok artifact)
      (hstores : Stores db.receipts artifact receipts) :
      Wrote db next nowMs (.publish artifact) { db with
        state := next, receipts, production := some artifact.receiptId }

theorem persistChange_eq_ok {next : ExecutionState κ} {change : Change κ}
    (h : persistChange { db with state := next } next change nowMs = .ok db') :
    Wrote db next nowMs change db' := by
  cases change with
  | state =>
    cases h
    exact .aggregate (.inl rfl)
  | dispatch event effects timerId =>
    simp only [persistChange, bind_eq_ok] at h
    obtain ⟨_, -, _, hevent, h⟩ := h
    obtain ⟨hfits, rfl⟩ := insertEventRecord_eq_ok hevent
    have hconsume : ∀ {timers : List TimerRow}, TimersFrom db.timers next.version timers →
        (let mid := { db with
          state := next
          events := db.events ++ [eventRow κ (next.eventPosition - 1) event effects]
          timers := timers }
        timerId.elim (.ok mid) (consumeTimer mid)) = .ok db' →
        Wrote db next nowMs (.dispatch event effects timerId) db' := by
      intro timers hfrom h
      cases timerId with
      | none =>
        cases h
        exact .dispatch timers hfits hfrom
      | some id =>
        obtain ⟨timers', hfrom', rfl⟩ := consumeTimer_eq_ok h next.version
        exact .dispatch timers' hfits (hfrom.trans hfrom')
    split at h
    · simp only [bind_eq_ok] at h
      obtain ⟨indexed, -, mid, hmid, h⟩ := h
      obtain ⟨timers, hfrom, rfl⟩ := persistEffects_eq_ok hmid
      exact hconsume hfrom (by cases timerId <;> exact h)
    · exact hconsume (.refl _ _) (by cases timerId <;> exact h)
  | stepSignature certified =>
    cases certified with
    | none =>
      cases h
      exact .aggregate (.inr rfl)
    | some proposal =>
      obtain ⟨hevent, timers, hfrom, rfl⟩ := commitStagedEvent_eq_ok h
      exact .certified timers hevent hfrom
  | publish artifact =>
    obtain ⟨hcodec, receipts, hstores, rfl⟩ := persistTerminalPublication_eq_ok h
    exact .published receipts hcodec hstores

structure Accepts (db : Db κ) (next : ExecutionState κ) : Prop where
  executionId : next.executionId = db.state.executionId
  producer : next.producer = db.hostId
  encoded : ∃ bytes, next.encode = .ok bytes
  reason : boundedReason next = .ok ()
  version : next.version.toNat < 2 ^ 63
  agreedStep : next.agreedStep.toNat < 2 ^ 63
  eventPosition : next.eventPosition.toNat < 2 ^ 63

theorem persistInTransaction_wrote {expected : UInt64} {next : ExecutionState κ} {change : Change κ}
    (h : db.persistInTransaction expected next change nowMs = .ok db') :
    Accepts db next ∧ Wrote db next nowMs change db' := by
  simp only [persistInTransaction, persistState, sqliteU64, bind_eq_ok, mapError_eq_ok,
    ensure_eq_ok, pure_eq_ok] at h
  obtain ⟨_, ⟨hid, hproducer⟩, _, -, _, ⟨bytes, hencode, _, hreason, _, hversion, _, hstep, _,
    hposition, _, -, _, -, _, -, rfl⟩, h⟩ := h
  exact ⟨⟨hid, hproducer, ⟨bytes, hencode⟩, hreason, hversion, hstep, hposition⟩,
    persistChange_eq_ok h⟩

theorem Accepts.persistInTransaction {next : ExecutionState κ} (h : db.Accepts next)
    (hversion : db.state.version.toNat < 2 ^ 63) (hnow : nowMs.toNat < 2 ^ 63) (change : Change κ) :
    db.persistInTransaction db.state.version next change nowMs =
      persistChange { db with state := next } next change nowMs := by
  obtain ⟨bytes, hencode⟩ := h.encoded
  simp only [Db.persistInTransaction, persistState, sqliteU64, h.executionId, h.producer, hencode,
    h.reason, h.version, h.agreedStep, h.eventPosition, hversion, hnow, ensure, and_self, if_true]
  rfl

end Db

end Arena0
