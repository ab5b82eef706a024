import Arena0.ReferenceHost
import Arena0.StoreInvariant

/-!
# Every database reopens

Whatever sequence of creations and inputs wrote a database, opening it loads
every unfinished execution and accepts its rows.
-/

namespace Arena0

open Borsh Fallible Actor ExecutionState

variable {κ : Primitives} {receipt : ReceiptArtifact κ} {s : ExecutionState κ}

/-! ## Reading the columns back -/

theorem decodeEnd_endColumns (h : s.validateEnd = .ok ()) :
    decodeEnd (endColumns s.endPhase).1 (endColumns s.endPhase).2 = .ok s.endPhase := by
  have hread : ∀ {peers : Finset PeerId}, (∀ peer ∈ peers, s.binding.isParticipant peer = true) →
      (peerSetCodec.encode peers).length ≤ 4 + maxParticipants * 32 ∧
        peerSetCodec.fromSlice (peerSetCodec.encode peers) = some peers := by
    intro peers hpeers
    have hset := peerSet_within hpeers
    exact ⟨hset.length_le, peerSetCodec.fromSlice_encode hset.valid⟩
  unfold validateEnd at h
  cases hphase : s.endPhase with
  | «open» =>
    obtain ⟨hlength, hslice⟩ := hread fun peer hp => absurd hp (Finset.notMem_empty peer)
    simp [decodeEnd, endColumns, hlength, hslice, ensure, okOr]
  | ending unconfirmed =>
    simp only [hphase, bind_eq_ok, ensure_eq_ok] at h
    obtain ⟨_, -, _, hne, hpeers⟩ := h
    obtain ⟨hlength, hslice⟩ := hread fun peer hp => (hpeers peer hp).2
    simp [decodeEnd, endColumns, hlength, hslice, hne, ensure, okOr]
  | ended unconfirmed =>
    simp only [hphase, bind_eq_ok, ensure_eq_ok] at h
    obtain ⟨_, -, hpeers⟩ := h
    obtain ⟨hlength, hslice⟩ := hread fun peer hp => (hpeers peer hp).2
    simp [decodeEnd, endColumns, hlength, hslice, ensure, okOr]

/-! ## The rows of one execution pass -/

namespace Execution

variable {keys : HostKeys} {e : Execution κ}

theorem Intact.length_events (h : e.Intact keys) :
    e.host.db.events.length = e.host.db.state.eventPosition.toNat := by
  simpa using congrArg List.length h.filed.positions

theorem Intact.validateEventRows_eq_ok (h : e.Intact keys) :
    e.host.db.validateEventRows e.host.db.state = .ok () := by
  have hsorted : e.host.db.events.Pairwise fun x y => x.eventPosition ≤ y.eventPosition := by
    have hlt := List.pairwise_lt_range (n := e.host.db.state.eventPosition.toNat)
    rw [← h.filed.positions, List.pairwise_map] at hlt
    exact hlt.imp fun hxy => UInt64.le_iff_toNat_le.2 (le_of_lt hxy)
  have hpositions := h.filed.positions
  rw [← h.length_events, List.range_eq_range'] at hpositions
  have hbound := h.filed.position_lt
  have hloop := Db.validateEventLoop_eq_ok 0 h.recorded hpositions
    (by rw [h.length_events]; omega)
  rw [Nat.zero_add, h.length_events] at hloop
  simp only [Db.validateEventRows, hsorted.insertionSort_eq, hloop, ok_bind, ensure, if_true]
  split
  · rfl
  · rename_i proposal hproposal
    have hnext := checkedAdd_eq_some (h.sound.recoverable.proposal proposal hproposal).position
    have hone : (1 : UInt64).toNat = 1 := rfl
    rw [hone] at hnext
    have hne : e.host.db.state.eventPosition.toNat ≠ 0 := by omega
    have heq : proposal.eventPosition.toNat = e.host.db.state.eventPosition.toNat - 1 := by omega
    simp [hne, heq]

theorem Intact.validateTimerRows_eq_ok (h : e.Intact keys) :
    e.host.db.validateTimerRows e.host.db.state = .ok () :=
  forAll_eq_ok.2 fun row hrow => (h.timers row hrow).validateTimerRow_eq_ok

theorem Intact.validateAgreedRows_eq_ok (h : e.Intact keys) {entries : List TraceEntry}
    (hledger : e.host.db.Ledger entries) : e.validateAgreedRows e.host.db.state = .ok entries := by
  have hlength : e.stepStates.length = entries.length :=
    h.stepStates.trans hledger.rows.length_eq
  have htrace := validateAgreedTrace_eq_ok.2 hledger.certified
  simp only [validateAgreedRows, hledger.loadAgreedTrace_eq_ok, htrace, ok_bind, bind_eq_ok,
    ensure_eq_ok, mapError_eq_ok, pure_eq_ok]
  exact ⟨(), hlength, _, rfl, (), ⟨rfl, rfl⟩, trivial⟩

theorem find?_last {α : Type} {f : α → ℕ} {rows : List α} {k : ℕ}
    (h : rows.map f = List.range (k + 1)) : rows.find? (f · = k) = rows.getLast? := by
  obtain rfl | ⟨front, last, rfl⟩ := rows.eq_nil_or_concat'
  · simp at h
  rw [List.map_append, List.range_succ] at h
  obtain ⟨hfront, hlast⟩ := List.append_inj' h rfl
  have hnone : front.find? (f · = k) = none := by
    rw [List.find?_eq_none]
    intro a ha heq
    have hmem : f a ∈ List.range k := hfront ▸ List.mem_map_of_mem ha
    rw [List.mem_range] at hmem
    have hk : f a = k := by simpa using heq
    omega
  have hk : f last = k := by simpa using hlast
  simp [List.find?_append, hnone, hk]

theorem Intact.latestCertification_eq_ok (h : e.Intact keys) :
    e.latestCertification e.host.db.state = .ok e.row.lastStepAtMs := by
  obtain ⟨entries, hledger⟩ := h.sound.ledger
  have hlength := hledger.length_eq
  have hsteps := (Db.map_step_of_rows hledger.rows).trans hledger.map_step
  rw [hlength, ← List.range_eq_range'] at hsteps
  rw [h.lastStep]
  unfold latestCertification
  split
  · rename_i hzero
    rw [hzero] at hsteps
    have hnil : e.host.db.agreedSteps = [] := by simpa using hsteps
    rw [hnil]
    rfl
  · rename_i hne
    have hpos : e.host.db.state.agreedStep.toNat ≠ 0 := fun hz => hne (UInt64.toNat_inj.1 hz)
    have hlast : (e.host.db.state.agreedStep - 1).toNat = e.host.db.state.agreedStep.toNat - 1 := by
      rw [UInt64.toNat_sub_of_le _ _ (UInt64.le_iff_toNat_le.2 (by simp; omega))]
      rfl
    have hsucc : e.host.db.state.agreedStep.toNat =
        (e.host.db.state.agreedStep - 1).toNat + 1 := by omega
    rw [hsucc] at hsteps
    have hfind := find?_last hsteps
    simp only [UInt64.toNat_inj] at hfind
    rw [hfind]
    cases hgetLast : e.host.db.agreedSteps.getLast? with
    | none =>
      rw [List.getLast?_eq_none_iff.1 hgetLast] at hsteps
      simp at hsteps
    | some row => rfl

theorem Intact.validateStateIndexes_eq_ok (h : e.Intact keys) :
    e.validateStateIndexes e.host.db.state = .ok () := by
  have hcolumns := h.columns
  have hphase := decodeEnd_endColumns h.sound.recoverable.ending
  rw [← hcolumns.endPhase] at hphase
  simp only [validateStateIndexes, hphase, hcolumns.summary, h.latestCertification_eq_ok, ok_bind,
    bind_eq_ok, ensure_eq_ok]
  exact ⟨(), trivial, (), ⟨hcolumns.version, hcolumns.lifecycle, hcolumns.agreedStep,
    hcolumns.eventPosition⟩, trivial, hcolumns.callout, trivial⟩

theorem Intact.decodeStateRow_eq_ok (h : e.Intact keys)
    (hid : ∀ id, e.host.db.state.status.publishedReceiptId = some id → id ≠ 0) :
    e.decodeStateRow = .ok e.host.db.state := by
  have hcolumns := h.columns
  obtain ⟨bytes, hencode, hseal⟩ := hcolumns.state
  obtain ⟨bytes', hencode', hlength, hdecode⟩ :=
    h.sound.recoverable.decode_encode (calloutsBounded_of_encode hencode) hid
  obtain rfl := Except.ok.inj (hencode.symm.trans hencode')
  simp only [decodeStateRow, DurableEnvelope.open_seal hseal hlength, hdecode,
    ok_bind, bind_eq_ok, mapError_eq_ok, ensure_eq_ok, pure_eq_ok]
  exact ⟨_, rfl, (), ⟨hcolumns.executionId.symm, hcolumns.producer.symm,
    hcolumns.sessionId.symm⟩, (), h.validateStateIndexes_eq_ok, rfl⟩

end Execution

/-! ## The database passes -/

namespace Database

variable {keys : HostKeys} {d : Database κ} {id : ExecId} {e : Execution κ}

theorem length_le_of_decode {bytes : Bytes}
    (h : ReceiptArtifact.decode bytes = .ok receipt) : bytes.length ≤ maxReceiptBytes := by
  simp only [ReceiptArtifact.decode, ensurePayload, bind_eq_ok, ensure_eq_ok] at h
  exact h.choose_spec.1

theorem endPhase_of_published {receiptId : ReceiptId} (hrec : s.Recoverable)
    (h : s.status.publishedReceiptId = some receiptId) : (endColumns s.endPhase).1 ≠ 0 := by
  have hterminal : s.status.isTerminal = true := by
    by_contra hrunning
    rw [ExecutionStatus.publishedReceiptId_of_running (by simpa using hrunning)] at h
    cases h
  have hne := hrec.endPhase_ne_open hterminal
  cases hphase : s.endPhase with
  | «open» => exact absurd hphase hne
  | ending unconfirmed => exact Nat.one_ne_zero
  | ended unconfirmed => exact two_ne_zero

theorem Intact.receiptProduction_eq (h : d.Intact keys) (hget : d.executions.get? id = some e)
    {receiptId : ReceiptId} (hproduction : e.host.db.production = some receiptId) :
    d.receiptProduction receiptId = some id := by
  unfold receiptProduction
  have hmem := (d.executions.mem_entries_iff id e).2 hget
  cases hfind : d.executions.entries.find? fun p => p.2.host.db.production = some receiptId with
  | none =>
    have hall := List.find?_eq_none.1 hfind (id, e) hmem
    simp [hproduction] at hall
  | some p =>
    have hp := (d.executions.mem_entries_iff p.1 p.2).1 (List.mem_of_find?_eq_some hfind)
    have hprod : p.2.host.db.production = some receiptId := by simpa using List.find?_some hfind
    rw [h.producer id p.1 e p.2 receiptId hget hp hproduction hprod]
    rfl

theorem Intact.decodeStoredReceipt_eq_ok (h : d.Intact keys)
    (hget : d.executions.get? id = some e)
    (hpublished : e.host.db.state.status.publishedReceiptId = some receipt.receiptId)
    (hmem : receipt ∈ d.receipts) (hpublishes : e.host.db.Publishes receipt) :
    ∃ provenance, d.decodeStoredReceipt receipt
        = .ok (⟨receipt.receiptId, provenance, receipt⟩, some id) ∧
      ReceiptProvenance.fromFacts (d.imports.contains receipt.receiptId) true
        = some provenance := by
  have he := h.execution id e hget
  obtain ⟨bytes, hencode, hdecode⟩ := h.readsBack receipt hmem
  have hopen : openColumn κ .receipt bytes maxReceiptBytes = .ok bytes :=
    openColumn_eq_ok (length_le_of_decode hdecode) (by decide)
  have hproduction := h.receiptProduction_eq hget (he.production.trans hpublished)
  have hsession : e.row.sessionId = receipt.body.header.sessionHash :=
    he.columns.sessionId.trans (congrArg Activation.sessionHash hpublishes.activation.symm)
  have hproducer : e.row.producer = d.hostId :=
    he.columns.producer.trans (he.sound.producer.trans h.hostId.symm)
  have hended : e.row.endPhase.1 ≠ 0 := by
    rw [he.columns.endPhase]
    exact endPhase_of_published he.sound.recoverable hpublished
  obtain ⟨provenance, hprovenance⟩ : ∃ provenance,
      ReceiptProvenance.fromFacts (d.imports.contains receipt.receiptId) true = some provenance := by
    cases d.imports.contains receipt.receiptId <;> exact ⟨_, rfl⟩
  refine ⟨provenance, ?_, hprovenance⟩
  simp only [decodeStoredReceipt, hencode, bind_eq_ok, mapError_eq_ok, ensure_eq_ok, okOr_eq_ok]
  refine ⟨bytes, rfl, bytes, hopen, receipt, hdecode, (), ⟨rfl, rfl, rfl⟩, (), ?_, provenance, ?_, ?_⟩
  · rw [hproduction]
    rintro _ ⟨⟩
    exact ⟨e, hget, hsession, hproducer, hended⟩
  · rw [hproduction]
    exact hprovenance
  · rw [hproduction]
    rfl

theorem Intact.validateTerminalRelation_eq_ok (h : d.Intact keys)
    (hget : d.executions.get? id = some e) :
    d.validateTerminalRelation e e.host.db.state = .ok () := by
  have he := h.execution id e hget
  simp only [validateTerminalRelation, he.production, ensure, if_true, ok_bind]
  split
  · rfl
  · rename_i receiptId hpublished
    obtain ⟨receipt, hfind, hpublishes⟩ := h.holds id e hget receiptId hpublished
    have hsession : receipt.body.header.sessionHash = e.host.db.state.binding.sessionId :=
      congrArg Activation.sessionHash hpublishes.activation
    exact ensure_eq_ok.2 ⟨hpublished, receipt, List.mem_of_find?_eq_some hfind,
      by simpa using List.find?_some hfind, hsession⟩

theorem Intact.validateTerminalRows_eq_ok (h : d.Intact keys)
    (hget : d.executions.get? id = some e) {entries : List TraceEntry}
    (hledger : e.host.db.Ledger entries) :
    d.validateTerminalRows e e.host.db.state entries = .ok () := by
  have he := h.execution id e hget
  simp only [validateTerminalRows, h.validateTerminalRelation_eq_ok hget, ok_bind]
  split
  · rfl
  · rename_i receiptId hpublished
    obtain ⟨receipt, hfind, hpublishes⟩ := h.holds id e hget receiptId hpublished
    have hid : receipt.receiptId = receiptId := by simpa using List.find?_some hfind
    obtain ⟨provenance, hstored, -⟩ := h.decodeStoredReceipt_eq_ok hget
      (by rw [hid]; exact hpublished) (List.mem_of_find?_eq_some hfind) hpublishes
    have htrace : receipt.body.trace = entries :=
      Except.ok.inj (hpublishes.ledger.loadAgreedTrace_eq_ok.symm.trans
        hledger.loadAgreedTrace_eq_ok)
    have hproducer : e.host.db.state.producer = d.hostId :=
      he.sound.producer.trans h.hostId.symm
    simp only [hfind, okOr, hstored, ok_bind, bind_eq_ok, ensure_eq_ok]
    refine ⟨(), ⟨congrArg some (h.executionId id e hget).symm, hpublishes.activation, hproducer⟩,
      (), htrace, ?_⟩
    split
    · rename_i hterminal
      obtain ⟨outcome, houtcome, hbody⟩ := hpublishes.completed hterminal
      simp [houtcome, hbody, ensure]
    · rename_i cause hterminal
      simp [hpublishes.stopped cause hterminal, ensure]

theorem Intact.validateProjectionRows_eq_ok (h : d.Intact keys)
    (hget : d.executions.get? id = some e) :
    d.validateProjectionRows e e.host.db.state = .ok () := by
  have he := h.execution id e hget
  obtain ⟨entries, hledger⟩ := he.sound.ledger
  simp only [validateProjectionRows, he.validateEventRows_eq_ok,
    he.validateAgreedRows_eq_ok hledger, he.validateTimerRows_eq_ok, ok_bind]
  exact h.validateTerminalRows_eq_ok hget hledger

theorem Intact.loadExecution_eq_ok (h : d.Intact keys) (hget : d.executions.get? id = some e)
    (hreceipts : ∀ receipt ∈ d.receipts, receipt.receiptId ≠ 0) :
    d.loadExecution id = .ok (some e.host.db.state) := by
  have he := h.execution id e hget
  have hhost : e.row.hostId = d.hostId := he.columns.hostId_eq.trans h.hostId.symm
  have hdecode := he.decodeStateRow_eq_ok fun receiptId hpublished => by
    obtain ⟨receipt, hfind, -⟩ := h.holds id e hget receiptId hpublished
    have hid : receipt.receiptId = receiptId := by simpa using List.find?_some hfind
    exact hid ▸ hreceipts receipt (List.mem_of_find?_eq_some hfind)
  simp only [loadExecution, hget, hdecode, ok_bind, bind_eq_ok, ensure_eq_ok]
  refine ⟨(), hhost, ?_⟩
  split
  · rw [h.validateTerminalRelation_eq_ok hget]
    rfl
  · rfl

theorem Intact.decodeStoredReceipt_imported (h : d.Intact keys)
    (hmem : receipt ∈ d.receipts) (hnone : d.receiptProduction receipt.receiptId = none) :
    d.decodeStoredReceipt receipt = .ok (⟨receipt.receiptId, .imported, receipt⟩, none) := by
  obtain ⟨bytes, hencode, hdecode⟩ := h.readsBack receipt hmem
  have hopen : openColumn κ .receipt bytes maxReceiptBytes = .ok bytes :=
    openColumn_eq_ok (length_le_of_decode hdecode) (by decide)
  have himported : d.imports.contains receipt.receiptId = true := by
    rcases h.provenance receipt hmem with himported | ⟨id, e, hget, hproduction⟩
    · simpa using himported
    · rw [h.receiptProduction_eq hget hproduction] at hnone
      cases hnone
  simp only [decodeStoredReceipt, hencode, bind_eq_ok, mapError_eq_ok, ensure_eq_ok, okOr_eq_ok]
  refine ⟨bytes, rfl, bytes, hopen, receipt, hdecode, (), ⟨rfl, rfl, rfl⟩, (), ?_, .imported, ?_, ?_⟩
  · simp [hnone]
  · rw [hnone, himported]
    rfl
  · rw [hnone]
    rfl

theorem Intact.validateReceipts_eq_ok (h : d.Intact keys) : d.validateReceipts = .ok () := by
  refine forAll_eq_ok.2 fun row hrow => ?_
  split
  · rfl
  · rename_i hnone
    rw [h.decodeStoredReceipt_imported hrow hnone]
    rfl

theorem Intact.validateDatabase_eq_ok (h : d.Intact keys)
    (hreceipts : ∀ receipt ∈ d.receipts, receipt.receiptId ≠ 0) : d.validateDatabase = .ok () := by
  refine bind_eq_ok.2 ⟨(), forAll_eq_ok.2 fun p hp => ?_, h.validateReceipts_eq_ok⟩
  have hget := (d.executions.mem_entries_iff p.1 p.2).1 hp
  split
  · rfl
  · simp only [h.loadExecution_eq_ok hget hreceipts, ok_bind, okOr]
    exact h.validateProjectionRows_eq_ok hget

end Database

/-- Every database that creations, actors and imports write, with crashes between and failed
transactions rolled back, opens: each unfinished execution loads, and the rows of every
execution match its aggregate.  No receipt has the reserved identity. -/
theorem database_reopens (keys : HostKeys) (actions : List (StoreAction κ))
    (hreceipts : ∀ receipt ∈ ((Database.empty keys.peerId).run keys actions).receipts,
      receipt.receiptId ≠ 0) :
    ((Database.empty keys.peerId).run keys actions).validateDatabase = .ok () ∧
    ∀ id e, ((Database.empty keys.peerId).run keys actions).executions.get? id = some e →
      ((Database.empty keys.peerId).run keys actions).loadExecution id
        = .ok (some e.host.db.state) ∧
      ((Database.empty keys.peerId).run keys actions).validateProjectionRows e e.host.db.state
        = .ok () := by
  have hintact := (Database.intact_empty keys).run actions
  refine ⟨hintact.validateDatabase_eq_ok hreceipts, fun id e hget => ?_⟩
  exact ⟨hintact.loadExecution_eq_ok hget hreceipts, hintact.validateProjectionRows_eq_ok hget⟩

private theorem Database.step_createExecution {d : Database κ} {keys : HostKeys}
    {executionId : ExecId}
    {activation : Activation κ} {producer : PeerId} {sharedState : SharedStateBytes}
    {localState : LocalStateBytes} {nowMs : UInt64} {db : Db κ} {row : ExecutionRow}
    (hcreate : Db.create d.hostId d.receipts executionId activation producer sharedState localState
      nowMs = .ok db) (hget : d.executions.get? executionId = none)
    (hsession : ∀ p ∈ d.executions.entries, p.2.row.sessionId ≠ db.state.binding.sessionId)
    (hrow : ExecutionRow.insertExecution d.hostId db.state nowMs = .ok row) :
    d.step keys (.createExecution executionId activation producer sharedState localState nowMs) =
      { d with executions := d.executions.insert executionId ⟨.initial db, row, []⟩ } := by
  simp only [step, createExecution, hcreate, hget, hrow, ok_bind, ensure, if_pos hsession]
  rfl

namespace Sample

/-- The columns of the execution the first participant has just created. -/
def createdRow : ExecutionRow :=
  (ExecutionRow.insertExecution (keys 1).peerId (db 1).state 0).toOption.get (by decide +kernel)

def createdDatabase : Database referencePrimitives :=
  ⟨(keys 1).peerId, OrdMap.empty.insert executionId ⟨.initial (db 1), createdRow, []⟩, [], []⟩

/-- The creation of the reference execution at the first participant. -/
def createAction : StoreAction referencePrimitives :=
  .createExecution executionId activation (peer 1) shared localState 0

theorem createdRow_eq :
    ExecutionRow.insertExecution (keys 1).peerId (db 1).state 0 = .ok createdRow := eq_ok_get _

theorem step_createAction :
    (Database.empty (keys 1).peerId).step (keys 1) createAction = createdDatabase :=
  Database.step_createExecution (create_eq_ok (by decide +kernel) (by decide +kernel))
    (OrdMap.get?_empty _) (fun _ h => absurd h List.not_mem_nil) createdRow_eq

/-- Certify the session start, stop, publish the receipt and crash. -/
def publishActions : List (StoreAction referencePrimitives) :=
  (certifyStart ++ [(0, Input.stop .abort 0 "done"), (0, .publish), (0, .crash)]).map
    fun p : UInt64 × Input => .actor executionId p.1 p.2

end Sample

open Sample in
theorem database_reopens_published :
    ((Database.empty (keys 1).peerId).run (keys 1)
      (createAction :: publishActions)).receipts.length = 1 ∧
    ((Database.empty (keys 1).peerId).run (keys 1)
      (createAction :: publishActions)).validateDatabase = .ok () := by
  have hrun : (Database.empty (keys 1).peerId).run (keys 1)
      (createAction :: publishActions) =
      createdDatabase.run (keys 1) publishActions := by
    rw [Database.run, List.foldl_cons, step_createAction]
    rfl
  have hids : (createdDatabase.run (keys 1) publishActions).receipts.map
      (fun receipt => decide (receipt.receiptId = 0)) = [false] := by decide +kernel
  have hreceipts : ∀ receipt ∈ (createdDatabase.run (keys 1)
      publishActions).receipts, receipt.receiptId ≠ 0 := by
    intro receipt hmem hzero
    have hfalse := List.mem_map_of_mem (f := fun receipt : ReceiptArtifact referencePrimitives =>
      decide (receipt.receiptId = 0)) hmem
    simp [hids, hzero] at hfalse
  refine ⟨?_, (database_reopens (keys 1) (createAction :: publishActions)
    (by rw [hrun]; exact hreceipts)).1⟩
  rw [hrun]
  simpa using congrArg List.length hids

end Arena0
