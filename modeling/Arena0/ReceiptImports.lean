import Arena0.ReceiptIdentity
import Arena0.Reopening
import Arena0.Signing

/-!
# Imported receipts

A store holds the artifacts its Host produced and those it imported.  An import
can stand in the way of the Host's own publication only as another canonical
receipt of the same session.  The session hash does not cover the signatures of
the tickets, so such an artifact exists as soon as a signer has signed its ticket
twice; with the ticket signatures fixed, imports never interfere.
-/

namespace Arena0

open Borsh Fallible Actor ExecutionState

variable {κ : Primitives} {nowMs : UInt64} {receipts : List (ReceiptArtifact κ)}
  {row : ReceiptArtifact κ} {others : List ReceiptId}

/-! ## The executions of a database -/

theorem Execution.Moves.transition {keys : HostKeys}
    {e e' : Execution κ} (h : e.Moves keys others e') :
    ∃ input, Host.Transition keys e.host input e'.host := by
  cases h with
  | quiet live hlive => exact ⟨.crash, .quiet live hlive⟩
  | commit hlive hcommitted haccepts hwrote _ _ _ =>
    exact ⟨_, .commit hlive hcommitted haccepts.version hwrote.written⟩

private theorem ReceiptProvenance.of_produced {imported : Bool} {provenance : ReceiptProvenance}
    (h : fromFacts imported true = some provenance) :
    (provenance = .both ↔ imported = true) ∧ (provenance = .produced ↔ imported = false) := by
  cases imported <;> obtain rfl := Option.some.inj h <;> decide

namespace Database

theorem run_append (keys : HostKeys) (d : Database κ) (first second : List (StoreAction κ)) :
    d.run keys (first ++ second) = (d.run keys first).run keys second :=
  List.foldl_append

variable {keys : HostKeys} {d : Database κ}

/-- What every action preserves holds after every run. -/
theorem run_induction {P : List (StoreAction κ) → Database κ → Prop}
    (hstep : ∀ actions action d, P actions d → P (actions ++ [action]) (d.step keys action))
    (hp : P [] d) (actions : List (StoreAction κ)) : P actions (d.run keys actions) := by
  induction actions using List.reverseRecOn with
  | nil => exact hp
  | append_singleton actions action ih =>
    rw [run_append]
    exact hstep actions action _ ih

private theorem histories_step (h : d.Intact keys)
    (hsigns : ∀ id e, d.executions.get? id = some e → e.host.Histories keys)
    (action : StoreAction κ) :
    ∀ id e, (d.step keys action).executions.get? id = some e → e.host.Histories keys := by
  cases action with
  | createExecution executionId activation producer sharedState localState nowMs =>
    simp only [step, createExecution]
    split
    · rename_i next hnext
      simp only [bind_eq_ok] at hnext
      obtain ⟨db, hdb, hnext⟩ := hnext
      split at hnext
      · cases hnext
        exact hsigns
      · simp only [bind_eq_ok, pure_eq_ok] at hnext
        obtain ⟨_, -, row, -, rfl⟩ := hnext
        intro id e hget
        rcases OrdMap.get?_insert_cases hget with ⟨rfl, rfl⟩ | ⟨-, hget⟩
        · rw [h.hostId] at hdb
          exact Host.Created.histories ⟨_, _, _, _, _, _, _, hdb⟩
        · exact hsigns id e hget
    · exact hsigns
  | actor executionId nowMs input =>
    simp only [step, actor]
    split
    · exact hsigns
    rename_i e hget
    intro id e' hget'
    rcases OrdMap.get?_insert_cases hget' with ⟨rfl, rfl⟩ | ⟨-, hget'⟩
    · have he := (h.execution id e hget).withReceipts d.receipts
      have hmoves := Execution.step_moves he.sound (d.producedByOthers id) nowMs input
      obtain ⟨input', htransition⟩ := hmoves.transition
      have hold := hsigns id e hget
      exact htransition.histories he.sound ⟨hold.signed, hold.stops⟩
    · exact hsigns id e' hget'
  | importReceipt receipt nowMs =>
    simp only [step]
    split
    · rename_i himport
      obtain ⟨-, receipts, -, ⟨-, rfl⟩ | ⟨-, rfl⟩⟩ := importReceipt_eq_ok himport <;> exact hsigns
    · exact hsigns

/-! ## The rows of the artifacts -/

/-- No action removes an artifact or an import fact, and none changes a stored artifact. -/
structure Grows (d d' : Database κ) : Prop where
  receipts : d.receipts ⊆ d'.receipts
  find : ∀ receiptId receipt, d.receipts.find? (·.receiptId = receiptId) = some receipt →
    d'.receipts.find? (·.receiptId = receiptId) = some receipt
  imports : d.imports ⊆ d'.imports

theorem Grows.refl (d : Database κ) : d.Grows d :=
  ⟨List.Subset.refl _, fun _ _ h => h, List.Subset.refl _⟩

theorem Grows.trans {d' d'' : Database κ} (h : d.Grows d') (h' : d'.Grows d'') : d.Grows d'' :=
  ⟨List.Subset.trans h.receipts h'.receipts, fun _ _ hfind => h'.find _ _ (h.find _ _ hfind),
    List.Subset.trans h.imports h'.imports⟩

private theorem Intact.step_stores (h : d.Intact keys) (action : StoreAction κ) :
    (d.step keys action).receipts = d.receipts ∧ (d.step keys action).imports = d.imports ∨
      ∃ artifact, Db.ReadsBack artifact ∧
        Db.Stores d.receipts artifact (d.step keys action).receipts ∧
        ((d.step keys action).imports = d.imports ∨ ∃ nowMs,
          action = .importReceipt artifact nowMs ∧ nowMs.toNat < 2 ^ 63 ∧
            (d.step keys action).imports = d.imports ++ [artifact.receiptId]) := by
  cases action with
  | createExecution executionId activation producer sharedState localState nowMs =>
    refine .inl ?_
    simp only [Database.step, Database.createExecution]
    split
    · rename_i next hnext
      simp only [bind_eq_ok] at hnext
      obtain ⟨db, -, hnext⟩ := hnext
      split at hnext
      · cases hnext
        exact ⟨rfl, rfl⟩
      · simp only [bind_eq_ok, pure_eq_ok] at hnext
        obtain ⟨_, -, row, -, rfl⟩ := hnext
        exact ⟨rfl, rfl⟩
    · exact ⟨rfl, rfl⟩
  | actor executionId nowMs input =>
    simp only [Database.step, Database.actor]
    split
    · exact .inl ⟨rfl, rfl⟩
    rename_i e hget
    have he := (h.execution executionId e hget).withReceipts d.receipts
    have hmoves := Execution.step_moves he.sound (d.producedByOthers executionId) nowMs input
    rcases receipts_of_moves hmoves with hsame | ⟨artifact, hreads, hstores, -⟩
    · exact .inl ⟨hsame, rfl⟩
    · exact .inr ⟨artifact, hreads, hstores, .inl rfl⟩
  | importReceipt receipt nowMs =>
    simp only [Database.step]
    split
    · rename_i himport
      obtain ⟨hreads, receipts, hstores, ⟨-, rfl⟩ | ⟨hnow, rfl⟩⟩ := importReceipt_eq_ok himport
      · exact .inr ⟨receipt, hreads, hstores, .inl rfl⟩
      · exact .inr ⟨receipt, hreads, hstores, .inr ⟨nowMs, rfl, hnow, rfl⟩⟩
    · exact .inl ⟨rfl, rfl⟩

private theorem Intact.grows_step (h : d.Intact keys) (action : StoreAction κ) :
    d.Grows (d.step keys action) := by
  rcases h.step_stores action with ⟨hreceipts, himports⟩ | ⟨artifact, -, hstores, himports⟩
  · exact ⟨by rw [hreceipts]; exact List.Subset.refl _, by rw [hreceipts]; exact fun _ _ h => h,
      by rw [himports]; exact List.Subset.refl _⟩
  · refine ⟨hstores.subset, fun _ _ hfind => hstores.find_old hfind, ?_⟩
    rcases himports with himports | ⟨nowMs, -, -, himports⟩
    · rw [himports]
      exact List.Subset.refl _
    · rw [himports]
      exact List.subset_append_left _ _

private theorem Intact.grows_run (h : d.Intact keys) (actions : List (StoreAction κ)) :
    d.Grows (d.run keys actions) := by
  induction actions generalizing d with
  | nil => exact .refl d
  | cons action actions ih => exact (h.grows_step action).trans (ih (h.step action))

/-- An action imports the artifact, at a time SQLite can represent. -/
def Imports (actions : List (StoreAction κ)) (receipt : ReceiptArtifact κ) : Prop :=
  ∃ nowMs : UInt64, nowMs.toNat < 2 ^ 63 ∧ StoreAction.importReceipt receipt nowMs ∈ actions

private theorem step_importReceipt (keys : HostKeys) (d : Database κ) (receipt : ReceiptArtifact κ)
    (nowMs : UInt64) : (d.step keys (.importReceipt receipt nowMs)).executions = d.executions ∧
      ∀ row ∈ (d.step keys (.importReceipt receipt nowMs)).receipts,
        row ∈ d.receipts ∨ row = receipt := by
  simp only [step]
  split
  · rename_i next _ himport
    obtain ⟨-, receipts, hstores, hnext⟩ := importReceipt_eq_ok himport
    have hrows : ∀ row ∈ receipts, row ∈ d.receipts ∨ row = receipt := by
      intro row hrow
      cases hstores with
      | added => simpa using hrow
      | present => exact .inl hrow
    rcases hnext with ⟨-, rfl⟩ | ⟨-, rfl⟩ <;> exact ⟨rfl, hrows⟩
  · exact ⟨rfl, fun row hrow => .inl hrow⟩

/-- The rows of the artifacts: one for each identity, and those with an import fact come from an
import. -/
structure RowsTraced (actions : List (StoreAction κ)) (d : Database κ) : Prop where
  nodup : (d.receipts.map (·.receiptId)).Nodup
  imported : ∀ row ∈ d.receipts, row.receiptId ∈ d.imports → Imports actions row

theorem RowsTraced.find {actions : List (StoreAction κ)} (h : d.RowsTraced actions)
    (hrow : row ∈ d.receipts) : d.receipts.find? (·.receiptId = row.receiptId) = some row := by
  obtain ⟨found, hfound⟩ : ∃ found,
      d.receipts.find? (·.receiptId = row.receiptId) = some found := by
    rw [← Option.isSome_iff_exists, List.find?_isSome]
    exact ⟨row, hrow, by simp⟩
  have hid : found.receiptId = row.receiptId := by simpa using List.find?_some hfound
  rw [hfound, List.inj_on_of_nodup_map h.nodup (List.mem_of_find?_eq_some hfound) hrow hid]

private theorem Intact.rowsTraced_step {actions : List (StoreAction κ)} (h : d.Intact keys)
    (htraced : d.RowsTraced actions) (action : StoreAction κ) :
    (d.step keys action).RowsTraced (actions ++ [action]) := by
  have hgrow : ∀ {row}, row ∈ d.receipts → row.receiptId ∈ d.imports →
      Imports (actions ++ [action]) row := by
    intro row hrow himported
    obtain ⟨nowMs, hnow, hmem⟩ := htraced.imported row hrow himported
    exact ⟨nowMs, hnow, List.mem_append_left _ hmem⟩
  rcases h.step_stores action with ⟨hreceipts, himports⟩ | ⟨artifact, hreads, hstores, himports⟩
  · refine ⟨by rw [hreceipts]; exact htraced.nodup, fun row hrow himported => ?_⟩
    rw [hreceipts] at hrow
    rw [himports] at himported
    exact hgrow hrow himported
  · have hself := hstores.find_self hreads h.readsBack
    have hnodup : ((d.step keys action).receipts.map (·.receiptId)).Nodup := by
      generalize (d.step keys action).receipts = receipts at hstores
      cases hstores with
      | added hnew =>
        rw [List.map_append, List.nodup_append]
        refine ⟨htraced.nodup, List.nodup_singleton _, ?_⟩
        simpa using hnew
      | present => exact htraced.nodup
    refine ⟨hnodup, fun row hrow himported => ?_⟩
    by_cases hold : row.receiptId ∈ d.imports
    · obtain ⟨old, hmem, hid⟩ := h.imported _ hold
      obtain rfl := List.inj_on_of_nodup_map hnodup hrow (hstores.subset hmem) hid.symm
      exact hgrow hmem hold
    · -- the fact is new, so the row is the imported one
      rcases himports with himports | ⟨nowMs, haction, hnow, himports⟩
      · rw [himports] at himported
        exact absurd himported hold
      · rw [himports, List.mem_append, List.mem_singleton] at himported
        obtain rfl := List.inj_on_of_nodup_map hnodup hrow (List.mem_of_find?_eq_some hself)
          (himported.resolve_left hold)
        exact ⟨nowMs, hnow, by simp [haction]⟩

/-- What holds of the database of a run beyond its being intact. -/
structure Kept (keys : HostKeys) (actions : List (StoreAction κ)) (d : Database κ) : Prop where
  intact : d.Intact keys
  histories : ∀ id e, d.executions.get? id = some e → e.host.Histories keys
  rows : d.RowsTraced actions

theorem kept_run (keys : HostKeys) (actions : List (StoreAction κ)) :
    ((empty keys.peerId : Database κ).run keys actions).Kept keys actions := by
  refine run_induction (P := fun actions d => d.Kept keys actions) ?_ ?_ actions
  · intro actions action d h
    exact ⟨h.intact.step action, histories_step h.intact h.histories action,
      h.intact.rowsTraced_step h.rows action⟩
  · exact ⟨intact_empty keys, fun _ _ h => (nomatch h), List.nodup_nil, fun _ h => (nomatch h)⟩

/-! ## Reading and importing -/

theorem Intact.loadReceiptById_eq_ok (h : d.Intact keys) {receiptId : ReceiptId}
    (hfind : d.receipts.find? (·.receiptId = receiptId) = some row) :
    ∃ provenance, d.loadReceiptById receiptId = .ok (some ⟨receiptId, provenance, row⟩) ∧
      ReceiptProvenance.fromFacts (d.imports.contains receiptId)
        (d.receiptProduction receiptId).isSome = some provenance := by
  have hmem := List.mem_of_find?_eq_some hfind
  obtain rfl : row.receiptId = receiptId := by simpa using List.find?_some hfind
  have hload : ∀ {provenance production},
      d.decodeStoredReceipt row = .ok (⟨row.receiptId, provenance, row⟩, production) →
      d.loadReceiptById row.receiptId = .ok (some ⟨row.receiptId, provenance, row⟩) := by
    intro provenance production hdecode
    simp only [loadReceiptById, hfind, hdecode, ok_bind, bind_eq_ok, ensure_eq_ok]
    exact ⟨(), trivial, rfl⟩
  cases hproduction : d.receiptProduction row.receiptId with
  | none =>
    refine ⟨.imported, hload (h.decodeStoredReceipt_imported hmem hproduction), ?_⟩
    have himported : row.receiptId ∈ d.imports := by
      refine (h.provenance row hmem).resolve_right ?_
      rintro ⟨id, e, hget, hprod⟩
      rw [h.receiptProduction_eq hget hprod] at hproduction
      cases hproduction
    simp [himported, ReceiptProvenance.fromFacts]
  | some id =>
    obtain ⟨p, hp, rfl⟩ := Option.map_eq_some_iff.1 hproduction
    have hget := (d.executions.mem_entries_iff p.1 p.2).1 (List.mem_of_find?_eq_some hp)
    have hprod : p.2.host.db.production = some row.receiptId := by simpa using List.find?_some hp
    have hpublished := (h.execution _ _ hget).production.symm.trans hprod
    obtain ⟨receipt, hreceipt, hpublishes⟩ := h.holds _ _ hget _ hpublished
    obtain rfl := Option.some.inj (hfind.symm.trans hreceipt)
    obtain ⟨provenance, hdecode, hfacts⟩ :=
      h.decodeStoredReceipt_eq_ok hget hpublished hmem hpublishes
    exact ⟨provenance, hload hdecode, hfacts⟩

variable {receipt : ReceiptArtifact κ}

theorem insertArtifactRow_of_stored (hreads : Db.ReadsBack receipt)
    (hfind : receipts.find? (·.receiptId = receipt.receiptId) = some receipt) (nowMs : UInt64) :
    Db.insertArtifactRow receipts receipt nowMs = .ok receipts := by
  obtain ⟨bytes, hencode, hdecode⟩ := hreads
  simp only [Db.insertArtifactRow, hfind, hencode, bind_eq_ok, mapError_eq_ok, ensure_eq_ok,
    pure_eq_ok]
  exact ⟨bytes, rfl, receipt, hdecode, (), rfl, bytes, rfl, (), ⟨rfl, trivial, trivial⟩, trivial⟩

theorem insertArtifactRow_of_new (hreads : Db.ReadsBack receipt)
    (hfind : receipts.find? (·.receiptId = receipt.receiptId) = none)
    (hsession : receipt.kind = .receipt → ∀ row ∈ receipts, row.kind = .receipt →
      row.body.header.sessionHash ≠ receipt.body.header.sessionHash) (hnow : nowMs.toNat < 2 ^ 63) :
    Db.insertArtifactRow receipts receipt nowMs = .ok (receipts ++ [receipt]) := by
  obtain ⟨bytes, hencode, hdecode⟩ := hreads
  simp only [Db.insertArtifactRow, hfind, hencode, sqliteU64, bind_eq_ok, mapError_eq_ok,
    ensure_eq_ok, pure_eq_ok]
  exact ⟨bytes, rfl, receipt, hdecode, (), rfl, (), hsession, (), hnow, trivial⟩

theorem importReceipt_of_empty (hreads : Db.ReadsBack receipt) (hreceipts : d.receipts = [])
    (hnow : nowMs.toNat < 2 ^ 63) :
    ∃ d' outcome, d.importReceipt receipt nowMs = .ok (d', outcome) ∧ d'.receipts = [receipt] := by
  have hinsert : Db.insertArtifactRow d.receipts receipt nowMs = .ok [receipt] := by
    rw [hreceipts]
    exact insertArtifactRow_of_new hreads rfl (fun _ => List.forall_mem_nil _) hnow
  have hload : d.loadReceiptById receipt.receiptId = .ok none := by
    rw [loadReceiptById, hreceipts]
    rfl
  have htime : sqliteU64 nowMs = .ok () := by rw [sqliteU64, ensure, if_pos hnow]
  by_cases himported : receipt.receiptId ∈ d.imports <;>
    simp [importReceipt, hload, hinsert, himported, htime, ensure]

theorem Intact.importReceipt_again (h : d.Intact keys) (hreads : Db.ReadsBack receipt)
    (hfind : d.receipts.find? (·.receiptId = receipt.receiptId) = some receipt)
    (himported : receipt.receiptId ∈ d.imports) (nowMs : UInt64) :
    d.importReceipt receipt nowMs = .ok (d, .alreadyImported) := by
  obtain ⟨provenance, hload, -⟩ := h.loadReceiptById_eq_ok hfind
  have hcontains : d.imports.contains receipt.receiptId = true := by simpa using himported
  simp only [Database.importReceipt, hload, insertArtifactRow_of_stored hreads hfind, hcontains,
    ok_bind, bind_eq_ok, ensure_eq_ok, if_true]
  exact ⟨(), by simp, rfl⟩

/-- Whatever happens after an accepted import, repeating it changes nothing. -/
theorem Intact.importReceipt_repeated {d' : Database κ} (h : d.Intact keys)
    {outcome : ReceiptImportOutcome} (himport : d.importReceipt receipt nowMs = .ok (d', outcome))
    (later : List (StoreAction κ)) (nowMs' : UInt64) :
    (d'.run keys later).importReceipt receipt nowMs' =
      .ok (d'.run keys later, .alreadyImported) := by
  have h' := h.importReceipt himport
  have hgrows := h'.grows_run later
  obtain ⟨hreads, receipts, hstores, hd'⟩ := importReceipt_eq_ok himport
  have hself := hstores.find_self hreads h.readsBack
  refine (h'.run later).importReceipt_again hreads (hgrows.find _ _ ?_) (hgrows.imports ?_) nowMs'
  · rcases hd' with ⟨-, rfl⟩ | ⟨-, rfl⟩ <;> exact hself
  · rcases hd' with ⟨himported, rfl⟩ | ⟨-, rfl⟩
    · exact himported
    · simp

end Database

/-! ## The publication transaction -/

theorem Db.readAgreedRows_receipts (db : Db κ) (receipts : List (ReceiptArtifact κ))
    (state : ExecutionState κ) (index traceBytes : ℕ) (rows : List AgreedRow) :
    ({ db with receipts := receipts } : Db κ).readAgreedRows state index traceBytes rows =
      db.readAgreedRows state index traceBytes rows := by
  induction rows generalizing index traceBytes with
  | nil => rfl
  | cons row rows ih =>
    simp only [readAgreedRows, ih]
    rfl

theorem Db.assembleReceipt_receipts (db : Db κ) (receipts : List (ReceiptArtifact κ))
    (state : ExecutionState κ) :
    ({ db with receipts := receipts } : Db κ).assembleReceipt state = db.assembleReceipt state := by
  simp only [assembleReceipt, assembleTerminalArtifact, loadAgreedTrace, readAgreedRows_receipts]

namespace Execution

section

variable {keys : HostKeys} {e : Execution κ} {artifact : ReceiptArtifact κ}
  {next : ExecutionState κ}

theorem Intact.unproduced (he : e.Intact keys)
    (hpublish : e.host.db.state.publishReceipt artifact = .ok next) :
    e.host.db.production = none := by
  rw [he.production]
  obtain ⟨-, status, v, hstatus, -, -⟩ := publishReceipt_eq_ok hpublish
  rcases publishedStatus_eq_ok hstatus with ⟨outcome, hs, -⟩ | ⟨cause, hs, -⟩ <;> rw [hs] <;> rfl

/-- The publication of an assembled receipt is written once its artifact can be stored and no
other execution has produced it. -/
theorem Intact.persist_publish (he : e.Intact keys)
    (hpublish : e.host.db.state.publishReceipt artifact = .ok next)
    (hreceipts : Db.insertArtifactRow e.host.db.receipts artifact nowMs = .ok receipts)
    (hothers : artifact.receiptId ∉ others) (hnow : nowMs.toNat < 2 ^ 63)
    (hversion : e.host.db.state.version.toNat + 1 < 2 ^ 63) :
    ∃ row, e.persist others e.host.db.state.version next (.publish artifact) nowMs = .ok
      ({ e.host.db with
        state := next, receipts := receipts, production := some artifact.receiptId }, row,
        e.stepStates) := by
  have hrec := he.sound.recoverable.publishReceipt hpublish
  have hnone := he.unproduced hpublish
  obtain ⟨_, hstored⟩ := he.filed.encoded
  obtain ⟨-, status, v, -, hv, hnext⟩ := publishReceipt_eq_ok hpublish
  have hcallouts : next.CalloutsBounded := by
    rw [hnext]
    exact ⟨calloutBounded_none, (calloutsBounded_of_encode hstored).staged⟩
  have hadd : next.version.toNat = e.host.db.state.version.toNat + 1 := by
    rw [hnext]
    exact checkedAdd_eq_some hv
  have hsame : SameExecution e.host.db.state next :=
    ⟨by rw [hnext], by rw [hnext], by rw [hnext], by omega⟩
  have haccepts := he.filed.accepts hsame hrec hcallouts (by omega) (by rw [hnext])
  have hpersist : e.host.db.persistInTransaction e.host.db.state.version next (.publish artifact)
      nowMs = .ok { e.host.db with
        state := next, receipts := receipts, production := some artifact.receiptId } := by
    simp only [haccepts.persistInTransaction he.sound.version hnow, Db.persistChange,
      Db.persistTerminalPublication, Db.insertArtifact, hnone, hreceipts, ok_bind]
    rfl
  obtain ⟨bytes, hencode, hlength⟩ := hrec.encode_eq_ok hcallouts
  obtain ⟨sealed, hsealed⟩ : ∃ sealed, DurableEnvelope.«seal» κ .executionState bytes = .ok sealed :=
    DurableEnvelope.seal_eq_ok (hlength.trans (by decide))
  obtain ⟨columns, hcolumns⟩ : ∃ columns, StateColumns.of next = .ok columns := by
    have hsummary := he.columns.summary
    simp only [StateColumns.of, bind_eq_ok, pure_eq_ok] at hsummary ⊢
    obtain ⟨participantIds, hparticipants, -⟩ := hsummary
    rw [← hsame.binding] at hparticipants
    exact ⟨_, participantIds, hparticipants, (), hrec.boundedReason, rfl⟩
  obtain ⟨row, hrow⟩ : ∃ row, e.row.persistState next nowMs = .ok row := by
    simp only [ExecutionRow.persistState, bind_eq_ok, mapError_eq_ok, pure_eq_ok]
    exact ⟨_, bytes, hencode, columns, hcolumns, sealed, hsealed, rfl⟩
  refine ⟨row, ?_⟩
  simp only [persist, hpersist, hrow, ok_bind, bind_eq_ok, ensure_eq_ok]
  exact ⟨(), .inr (by rintro _ ⟨⟩; exact hothers), rfl⟩

theorem proposes_publish (nowMs : UInt64) (hlive : e.host.live = some e.host.db.state)
    (hwork : e.host.db.state.status.receiptWork = .assemble)
    (hassemble : e.host.db.assembleReceipt e.host.db.state = .ok artifact)
    (hpublish : e.host.db.state.publishReceipt artifact = .ok next) :
    e.host.proposes keys nowMs .publish = some (e.host.db.state, next, .publish artifact) := by
  simp only [Host.proposes, hlive, Actor.handle, Actor.publishReceipt, hwork, hassemble, hpublish]
  rfl

private theorem step_publish_refused (hproposes : e.host.proposes keys nowMs .publish =
      some (e.host.db.state, next, .publish artifact))
    (hrefused : ∀ receipts, Db.insertArtifactRow e.host.db.receipts artifact nowMs ≠ .ok receipts) :
    (e.step keys others nowMs .publish).host.db = e.host.db := by
  simp only [Execution.step, hproposes]
  split
  · rename_i db row stepStates hpersist
    simp only [persist, Db.persistInTransaction, Db.persistState, Db.persistChange,
      Db.persistTerminalPublication, Db.insertArtifact, bind_eq_ok, pure_eq_ok] at hpersist
    obtain ⟨_, ⟨_, -, _, -, _, ⟨_, -, _, -, _, -, _, -, _, -, _, -, _, -, _, -, rfl⟩, _,
      ⟨receipts, hreceipts, -⟩, -⟩, -⟩ := hpersist
    exact absurd hreceipts (hrefused receipts)
  · rfl

end

end Execution

/-! ## The own receipt of a session -/

namespace Database

theorem Intact.publish_refused {keys : HostKeys} {d : Database κ} (h : d.Intact keys) {id : ExecId}
    {e e' : Execution κ} {own row : ReceiptArtifact κ} (hget : d.executions.get? id = some e)
    (hassemble : e.host.db.assembleReceipt e.host.db.state = .ok own)
    (hlive : e.host.live = some e.host.db.state)
    (hwork : e.host.db.state.status.receiptWork = .assemble) (hreceipts : d.receipts = [row])
    (hid : row.receiptId ≠ own.receiptId) (hkind : own.kind = .receipt)
    (hkind' : row.kind = .receipt)
    (hsession : row.body.header.sessionHash = own.body.header.sessionHash) (nowMs : UInt64)
    (hget' : (d.step keys (.actor id nowMs .publish)).executions.get? id = some e') :
    e'.host.db.production = none := by
  have he := h.execution id e hget
  obtain ⟨_, _, next, hassemble', -, -, -, -, hpublish⟩ := he.sound.publish hwork
  obtain rfl := Except.ok.inj (hassemble.symm.trans hassemble')
  have hproposes : (e.withReceipts d.receipts).host.proposes keys nowMs .publish =
      some (e.host.db.state, next, .publish own) :=
    Execution.proposes_publish nowMs hlive hwork
      ((e.host.db.assembleReceipt_receipts _ _).trans hassemble) hpublish
  have hrow : row ∈ d.receipts := by simp [hreceipts]
  have hfind : d.receipts.find? (·.receiptId = own.receiptId) = none := by simp [hreceipts, hid]
  have hrefused : ∀ receipts, Db.insertArtifactRow d.receipts own nowMs ≠ .ok receipts := by
    intro receipts h
    simp only [Db.insertArtifactRow, hfind, bind_eq_ok, ensure_eq_ok] at h
    obtain ⟨_, -, _, -, _, -, _, hconflict, -⟩ := h
    exact hconflict hkind row hrow hkind' hsession
  have hdb : ((e.withReceipts d.receipts).step keys (d.producedByOthers id) nowMs
      .publish).host.db = (e.withReceipts d.receipts).host.db :=
    Execution.step_publish_refused hproposes hrefused
  simp only [Database.step, Database.actor, hget, OrdMap.get?_insert_self, Option.some.injEq]
    at hget'
  rw [← hget', hdb]
  exact he.unproduced hpublish

/-- The artifacts that can meet in a session: those imported, those stored, and the one the
execution assembles. -/
def Presented (actions : List (StoreAction κ)) (d : Database κ) (e : Execution κ) :
    Set (ReceiptArtifact κ) :=
  { a | Imports actions a ∨ a ∈ d.receipts ∨
    e.host.db.assembleReceipt e.host.db.state = .ok a }

/-- What is assumed of the primitives: unique BLS signatures, no collision among the artifacts,
and no certificate of the session that this Host has not signed. -/
structure Unforgeable (keys : HostKeys) (artifacts : Set (ReceiptArtifact κ)) (e : Execution κ) :
    Prop where
  unique : UniqueAggregates κ
  collisionFree : Set.InjOn κ.blake3 { bytes | ∃ a ∈ artifacts, bytes ∈ a.preimages }
  unforged : ∀ a ∈ artifacts, ∀ x ∈ a.body.certificates,
    x.verify e.host.db.state.binding = .ok () → x.commitment ∈ e.host.signed keys.peerId

/-- Imported canonical receipts of the session of an execution carry its tickets. -/
def SameTickets (actions : List (StoreAction κ)) (e : Execution κ) : Prop :=
  ∀ receipt nowMs, StoreAction.importReceipt receipt nowMs ∈ actions → receipt.kind = .receipt →
    receipt.body.header.sessionHash = e.host.db.state.binding.sessionId →
      receipt.body.header.activation.tickets = e.host.db.state.binding.activation.tickets

section Session

variable {keys : HostKeys} {e : Execution κ} {artifacts : Set (ReceiptArtifact κ)}

/-- Without a collision an identity belongs to one artifact. -/
theorem Unforgeable.eq_of_receiptId (h : Unforgeable keys artifacts e) {a b : ReceiptArtifact κ}
    (ha : a ∈ artifacts) (hb : b ∈ artifacts) (hreads : Db.ReadsBack a) (hreads' : Db.ReadsBack b)
    (hid : a.receiptId = b.receiptId) : a = b := by
  rw [a.receiptId_eq, b.receiptId_eq] at hid
  have hbytes := h.collisionFree ⟨a, ha, .inr (.inl rfl)⟩ ⟨b, hb, .inr (.inl rfl)⟩ (Id.mk.inj hid)
  have hencode : a.body.encode = b.body.encode := by
    simpa [ReceiptBody.identityBytes] using hbytes
  obtain ⟨bytes, hbytes, hdecode⟩ := hreads
  obtain ⟨bytes', hbytes', hdecode'⟩ := hreads'
  rw [a.encode_eq_ok] at hbytes
  rw [b.encode_eq_ok, ← hencode] at hbytes'
  obtain rfl := Except.ok.inj (hbytes.symm.trans hbytes')
  exact Except.ok.inj (hdecode.symm.trans hdecode')

theorem Unforgeable.eq_own (h : Unforgeable keys artifacts e) (hs : e.host.Sound keys)
    (hsigns : e.host.Histories keys) {own a : ReceiptArtifact κ} (hown : own ∈ artifacts)
    (ha : a ∈ artifacts)
    (hactivation : own.body.header.activation = e.host.db.state.binding.activation)
    (hsession : a.body.header.sessionHash = e.host.db.state.binding.sessionId)
    (htickets : a.body.header.activation.tickets = e.host.db.state.binding.activation.tickets)
    (hkind : own.kind = .receipt) (hkind' : a.kind = .receipt) : a = own := by
  have hbinding : own.body.binding = e.host.db.state.binding :=
    congrArg ExecutionBinding.mk hactivation
  have hparticipant : own.body.binding.isParticipant keys.peerId = true := by
    rw [hbinding, ← hs.producer]
    exact hs.recoverable.producer
  have hcollision : Set.InjOn κ.blake3 (own.preimages ∪ a.preimages) := by
    refine h.collisionFree.mono ?_
    rintro bytes (hbytes | hbytes)
    · exact ⟨own, hown, hbytes⟩
    · exact ⟨a, ha, hbytes⟩
  have hunforged : Unforged own.body.binding
      (fun peer c => peer = keys.peerId → c ∈ e.host.signed keys.peerId)
      { x | ∃ b ∈ artifacts, x ∈ b.body.certificates } := by
    rintro x ⟨b, hb, hx⟩ hverify peer - rfl
    rw [hbinding] at hverify
    exact h.unforged b hb x hx hverify
  have hcirculating : ∀ x ∈ own.body.certificates ++ a.body.certificates,
      x ∈ { x | ∃ b ∈ artifacts, x ∈ b.body.certificates } := by
    intro x hx
    rcases List.mem_append.1 hx with hx | hx
    · exact ⟨own, hown, hx⟩
    · exact ⟨a, ha, hx⟩
  refine (ReceiptArtifact.eq_of_tickets h.unique ?_ ?_ hkind hkind' hcollision hunforged
    hcirculating hparticipant ?_).symm
  · exact (congrArg Activation.sessionHash hactivation).trans hsession.symm
  · rw [hactivation, htickets]
  · intro c d hc hd _ _ hstep
    exact hsigns.signed.unique c (hc rfl) d (hd rfl) hstep

end Session

section Own

variable {keys : HostKeys} {actions : List (StoreAction κ)} {d : Database κ} {id : ExecId}
  {e : Execution κ} {own : ReceiptArtifact κ} (hkept : d.Kept keys actions)
  (hget : d.executions.get? id = some e)
  (hassumed : Unforgeable keys (Presented actions d e) e) (hsame : SameTickets actions e)
  (hpresented : own ∈ Presented actions d e) (hreads : Db.ReadsBack own)
  (hactivation : own.body.header.activation = e.host.db.state.binding.activation)

include hkept hassumed hpresented hreads

theorem Kept.row_eq_own (hrow : row ∈ d.receipts)
    (hid : row.receiptId = own.receiptId) : row = own :=
  hassumed.eq_of_receiptId (.inr (.inl hrow)) hpresented (hkept.intact.readsBack row hrow) hreads hid

include hget hactivation

theorem Kept.own_not_produced_by_others : own.receiptId ∉ d.producedByOthers id := by
  intro hmem
  obtain ⟨⟨id', e'⟩, hentry, hproduced⟩ := List.mem_filterMap.1 hmem
  have hget' := (d.executions.mem_entries_iff id' e').1 hentry
  split at hproduced
  · cases hproduced
  rename_i hne
  have hpublished := (hkept.intact.execution id' e' hget').production.symm.trans hproduced
  obtain ⟨receipt, hfind, hpublishes⟩ := hkept.intact.holds id' e' hget' _ hpublished
  obtain rfl := hkept.row_eq_own hassumed hpresented hreads (List.mem_of_find?_eq_some hfind)
    (by simpa using List.find?_some hfind)
  refine hne (hkept.intact.sessions id' id e' e hget' hget ?_)
  exact congrArg Activation.sessionHash (hpublishes.activation.symm.trans hactivation)

include hsame

omit hreads in
private theorem Kept.canonical_row (hkind : own.kind = .receipt)
    (hrow : row ∈ d.receipts) (hkind' : row.kind = .receipt)
    (hsession : row.body.header.sessionHash = e.host.db.state.binding.sessionId) :
    row = own ∨ e.host.db.production = some row.receiptId := by
  rcases hkept.intact.provenance row hrow with himported | ⟨id', e', hget', hproduction⟩
  · obtain ⟨nowMs, hnow, haction⟩ := hkept.rows.imported row hrow himported
    exact .inl (hassumed.eq_own (hkept.intact.execution id e hget).sound (hkept.histories id e hget)
      hpresented (.inl ⟨nowMs, hnow, haction⟩) hactivation hsession
      (hsame row nowMs haction hkind' hsession) hkind hkind')
  · -- the producer is an execution of the session, so it is this one
    have hpublished := (hkept.intact.execution id' e' hget').production.symm.trans hproduction
    obtain ⟨receipt, hfind, hpublishes⟩ := hkept.intact.holds id' e' hget' _ hpublished
    obtain rfl := Option.some.inj ((hkept.rows.find hrow).symm.trans hfind)
    have hsession' : e'.host.db.state.binding.sessionId = e.host.db.state.binding.sessionId := by
      rw [← hsession]
      exact (congrArg Activation.sessionHash hpublishes.activation).symm
    obtain rfl := hkept.intact.sessions id' id e' e hget' hget hsession'
    obtain rfl := Option.some.inj (hget'.symm.trans hget)
    exact .inr hproduction

theorem Kept.insertArtifactRow_own (hsub : receipts ⊆ d.receipts)
    (hproduced : e.host.db.production = none ∨ e.host.db.production = some own.receiptId)
    (hnow : nowMs.toNat < 2 ^ 63) :
    ∃ receipts', Db.insertArtifactRow receipts own nowMs = .ok receipts' := by
  cases hfind : receipts.find? (·.receiptId = own.receiptId) with
  | some row =>
    have hrow := hsub (List.mem_of_find?_eq_some hfind)
    obtain rfl := hkept.row_eq_own hassumed hpresented hreads hrow
      (by simpa using List.find?_some hfind)
    exact ⟨_, insertArtifactRow_of_stored hreads hfind nowMs⟩
  | none =>
    refine ⟨_, insertArtifactRow_of_new hreads hfind ?_ hnow⟩
    intro hkind row hrow hkind' hsession
    have hnew : row.receiptId ≠ own.receiptId := by simpa using List.find?_eq_none.1 hfind row hrow
    have hown : own.body.header.sessionHash = e.host.db.state.binding.sessionId :=
      congrArg Activation.sessionHash hactivation
    rcases hkept.canonical_row hget hassumed hsame hpresented hactivation hkind
      (hsub hrow) hkind' (hsession.trans hown) with rfl | hproduction
    · exact hnew rfl
    · rcases hproduced with hnone | hsome
      · rw [hnone] at hproduction
        cases hproduction
      · exact hnew (Option.some.inj (hproduction.symm.trans hsome))

end Own

/-- The own receipt of an execution in a store with imports. -/
structure OwnReceiptKept (keys : HostKeys) (actions : List (StoreAction κ)) (d : Database κ)
    (id : ExecId) (e : Execution κ) : Prop where
  /-- A terminal execution publishes. -/
  publishes : ∀ nowMs : UInt64, nowMs.toNat < 2 ^ 63 →
    e.host.db.state.version.toNat + 1 < 2 ^ 63 → e.host.live = some e.host.db.state →
    e.host.db.state.status.receiptWork = .assemble → ∃ artifact e',
      e.host.db.assembleReceipt e.host.db.state = .ok artifact ∧
      (d.step keys (.actor id nowMs .publish)).executions.get? id = some e' ∧
      e'.host.db.production = some artifact.receiptId
  /-- The row of a published receipt and its provenance, whatever the order of the actions; the
  publication can be repeated. -/
  row : ∀ receiptId, e.host.db.state.status.publishedReceiptId = some receiptId →
    ∃ artifact provenance, e.host.db.Publishes artifact ∧
      d.loadReceiptById receiptId = .ok (some ⟨receiptId, provenance, artifact⟩) ∧
      (provenance = .both ↔ Imports actions artifact) ∧
      (provenance = .produced ↔ ¬ Imports actions artifact) ∧
      ∀ nowMs, ({ e.host.db with receipts := d.receipts } : Db κ).persistTerminalPublication
        artifact nowMs = .ok { e.host.db with receipts := d.receipts }
  /-- Repeating an accepted import changes nothing, at once or later. -/
  repeated : ∀ receipt nowMs d' outcome, d.importReceipt receipt nowMs = .ok (d', outcome) →
    ∀ later nowMs', (d'.run keys later).importReceipt receipt nowMs' =
      .ok (d'.run keys later, .alreadyImported)
  /-- A refused import changes nothing. -/
  refused : ∀ receipt nowMs error, d.importReceipt receipt nowMs = .error error →
    d.step keys (.importReceipt receipt nowMs) = d
  validates : ∀ entries, e.host.db.loadAgreedTrace e.host.db.state = .ok entries →
    d.validateTerminalRows e e.host.db.state entries = .ok ()

section Theorem

variable {keys : HostKeys} {actions : List (StoreAction κ)} {d : Database κ} {id : ExecId}
  {e : Execution κ} (hkept : d.Kept keys actions) (hget : d.executions.get? id = some e)
  (hassumed : Unforgeable keys (Presented actions d e) e) (hsame : SameTickets actions e)

include hkept hget hassumed hsame

theorem Kept.publishes (hnow : nowMs.toNat < 2 ^ 63)
    (hversion : e.host.db.state.version.toNat + 1 < 2 ^ 63)
    (hlive : e.host.live = some e.host.db.state)
    (hwork : e.host.db.state.status.receiptWork = .assemble) : ∃ artifact e',
      e.host.db.assembleReceipt e.host.db.state = .ok artifact ∧
      (d.step keys (.actor id nowMs .publish)).executions.get? id = some e' ∧
      e'.host.db.production = some artifact.receiptId := by
  have he := hkept.intact.execution id e hget
  obtain ⟨artifact, bytes, next, hassemble, hencode, -, -, hdecode, hpublish⟩ :=
    he.sound.publish hwork
  have hactivation : artifact.body.header.activation = e.host.db.state.binding.activation := by
    obtain ⟨entries, hledger⟩ := he.sound.ledger
    obtain ⟨termination, -, hbody⟩ := hledger.assembleReceipt_eq_ok hassemble
    rw [hbody]
    exact he.sound.activation
  have hnone := he.unproduced hpublish
  have hpresented : artifact ∈ Presented actions d e := .inr (.inr hassemble)
  have hreads : Db.ReadsBack artifact := ⟨bytes, hencode, hdecode⟩
  obtain ⟨receipts, hreceipts⟩ := hkept.insertArtifactRow_own hget hassumed hsame hpresented
    hreads hactivation (List.Subset.refl _) (.inl hnone) hnow
  have hothers := hkept.own_not_produced_by_others hget hassumed hpresented hreads hactivation
  obtain ⟨row, hpersist⟩ := (he.withReceipts d.receipts).persist_publish hpublish hreceipts hothers
    hnow hversion
  -- the actor of the execution decides for this transaction
  have hproposes : (e.withReceipts d.receipts).host.proposes keys nowMs .publish =
      some (e.host.db.state, next, .publish artifact) := by
    have hassemble' : (e.withReceipts d.receipts).host.db.assembleReceipt e.host.db.state =
        .ok artifact := (e.host.db.assembleReceipt_receipts _ _).trans hassemble
    exact Execution.proposes_publish nowMs hlive hwork hassemble' hpublish
  have hstep : (e.withReceipts d.receipts).step keys (d.producedByOthers id) nowMs .publish =
      ⟨⟨{ e.host.db with
          state := next, receipts := receipts, production := some artifact.receiptId },
        some next, ⟨e.host.db.state, .publish, next⟩ :: e.host.journal⟩, row, e.stepStates⟩ := by
    have hpersist' : (e.withReceipts d.receipts).persist (d.producedByOthers id)
        e.host.db.state.version next (.publish artifact) nowMs = .ok
          ({ e.host.db with
            state := next, receipts := receipts, production := some artifact.receiptId }, row,
            e.stepStates) := hpersist
    simp only [Execution.step, hproposes, hpersist']
    rfl
  refine ⟨artifact, (e.withReceipts d.receipts).step keys (d.producedByOthers id) nowMs .publish,
    hassemble, ?_, by rw [hstep]⟩
  simp only [Database.step, Database.actor, hget]
  exact OrdMap.get?_insert_self _ _ _

/-- The fact that the own receipt was imported is there exactly when an action imported it. -/
theorem Kept.mem_imports_iff (hrun : d = (empty keys.peerId : Database κ).run keys actions)
    {own : ReceiptArtifact κ}
    (hfind : d.receipts.find? (·.receiptId = own.receiptId) = some own)
    (hactivation : own.body.header.activation = e.host.db.state.binding.activation)
    (hproduction : e.host.db.production = some own.receiptId) :
    own.receiptId ∈ d.imports ↔ Imports actions own := by
  have hmem := List.mem_of_find?_eq_some hfind
  refine ⟨hkept.rows.imported own hmem, ?_⟩
  rintro ⟨nowMs, hnow, haction⟩
  obtain ⟨before, after, rfl⟩ := List.append_of_mem haction
  have hbefore := (kept_run (κ := κ) keys before).intact
  rw [run_append] at hrun
  generalize (empty keys.peerId : Database κ).run keys before = d₀ at hrun hbefore
  have hgrows : d₀.Grows d := hrun ▸ hbefore.grows_run _
  have hreads := hkept.intact.readsBack own hmem
  obtain ⟨receipts, hreceipts⟩ := hkept.insertArtifactRow_own hget hassumed hsame
    (.inr (.inl hmem)) hreads hactivation hgrows.receipts (.inr hproduction) hnow
  -- the store the import was made to accepts it
  have hload : ∃ stored, d₀.loadReceiptById own.receiptId = .ok stored ∧
      ∀ row ∈ stored, row.receipt = own := by
    cases hfind₀ : d₀.receipts.find? (·.receiptId = own.receiptId) with
    | none => exact ⟨none, by simp only [loadReceiptById, hfind₀], by simp⟩
    | some row =>
      obtain rfl := Option.some.inj ((hgrows.find _ _ hfind₀).symm.trans hfind)
      obtain ⟨provenance, hload, -⟩ := hbefore.loadReceiptById_eq_ok hfind₀
      exact ⟨_, hload, by simp⟩
  obtain ⟨stored, hstored, hsame'⟩ := hload
  obtain ⟨next, outcome, himport⟩ : ∃ next outcome,
      d₀.importReceipt own nowMs = .ok (next, outcome) := by
    simp only [Database.importReceipt, hstored, hreceipts, ok_bind, sqliteU64, bind_eq_ok,
      ensure_eq_ok]
    by_cases himported : d₀.imports.contains own.receiptId = true
    · exact ⟨_, _, (), hsame', by rw [if_pos himported]; rfl⟩
    · exact ⟨_, _, (), hsame', by
        rw [if_neg himported]
        exact bind_eq_ok.2 ⟨(), ensure_eq_ok.2 hnow, rfl⟩⟩
  have hnext : own.receiptId ∈ next.imports := by
    obtain ⟨-, receipts', -, ⟨himported, rfl⟩ | ⟨-, rfl⟩⟩ := importReceipt_eq_ok himport
    · exact himported
    · simp
  have hafter : d = next.run keys after := by
    rw [hrun, Database.run, List.foldl_cons, Database.step, himport]
    rfl
  rw [hafter]
  exact ((hbefore.importReceipt himport).grows_run after).imports hnext

theorem Kept.published_row (hrun : d = (empty keys.peerId : Database κ).run keys actions)
    {receiptId : ReceiptId}
    (hpublished : e.host.db.state.status.publishedReceiptId = some receiptId) :
    ∃ artifact provenance, e.host.db.Publishes artifact ∧
      d.loadReceiptById receiptId = .ok (some ⟨receiptId, provenance, artifact⟩) ∧
      (provenance = .both ↔ Imports actions artifact) ∧
      (provenance = .produced ↔ ¬ Imports actions artifact) ∧
      ∀ nowMs, ({ e.host.db with receipts := d.receipts } : Db κ).persistTerminalPublication
        artifact nowMs = .ok { e.host.db with receipts := d.receipts } := by
  have he := hkept.intact.execution id e hget
  have hproduction := he.production.trans hpublished
  obtain ⟨artifact, hfind, hpublishes⟩ := hkept.intact.holds id e hget receiptId hpublished
  obtain rfl : artifact.receiptId = receiptId := by simpa using List.find?_some hfind
  obtain ⟨provenance, hload, hfacts⟩ := hkept.intact.loadReceiptById_eq_ok hfind
  have himports := hkept.mem_imports_iff hget hassumed hsame hrun hfind
    hpublishes.activation hproduction
  rw [hkept.intact.receiptProduction_eq hget hproduction] at hfacts
  obtain ⟨hboth, hproduced⟩ := ReceiptProvenance.of_produced hfacts
  refine ⟨artifact, provenance, hpublishes, hload, ?_, ?_, fun nowMs => ?_⟩
  · rw [hboth, ← himports, List.contains_iff_mem]
  · rw [hproduced, ← himports, ← List.contains_iff_mem, Bool.not_eq_true]
  · have hreads := hkept.intact.readsBack artifact (List.mem_of_find?_eq_some hfind)
    have hinsert := insertArtifactRow_of_stored hreads hfind nowMs
    simp only [Db.persistTerminalPublication, Db.insertArtifact, hinsert, ok_bind, bind_eq_ok,
      pure_eq_ok]
    refine ⟨_, rfl, ?_⟩
    dsimp only
    rw [hproduction]
    simp [ensure]

end Theorem

/-- With the signatures of the tickets fixed, importing receipts never blocks a Host's own receipt:
after every run the terminal execution of a session publishes, its row and provenance depend only
on whether the artifact was imported, repeated and refused imports change nothing, and the rows
validate. -/
theorem imports_never_block_publication (keys : HostKeys) (actions : List (StoreAction κ))
    {id : ExecId} {e : Execution κ}
    (hget : ((empty keys.peerId).run keys actions).executions.get? id = some e)
    (hassumed : Unforgeable keys
      (Presented actions ((empty keys.peerId).run keys actions) e) e)
    (hsame : SameTickets actions e) :
    OwnReceiptKept keys actions ((empty keys.peerId).run keys actions) id e where
  publishes _ hnow hversion hlive hwork :=
    (kept_run keys actions).publishes hget hassumed hsame hnow hversion hlive hwork
  row _ hpublished :=
    (kept_run keys actions).published_row hget hassumed hsame rfl hpublished
  repeated _ _ _ _ himport later nowMs' :=
    (kept_run keys actions).intact.importReceipt_repeated himport later nowMs'
  refused _ _ _ herror := by simp only [step, herror]
  validates entries hload := by
    have hintact := (kept_run (κ := κ) keys actions).intact
    obtain ⟨entries', hledger⟩ := (hintact.execution id e hget).sound.ledger
    obtain rfl := Except.ok.inj (hledger.loadAgreedTrace_eq_ok.symm.trans hload)
    exact hintact.validateTerminalRows_eq_ok hget hledger

end Database

namespace Sample

/-- The second participant signs its ticket again, with its other signature. -/
def resignedTicket : Ticket where
  data := (ticket 2 926440382525338713 0).data
  signature := referenceSign 64 (1 :: (peer 2).bytes.bytes)
    (ticket 2 926440382525338713 0).data.signingBytes

/-- The activation of the reference session over the tickets with the new signature. -/
def resignedActivation : Activation referencePrimitives where
  prepared :=
    { prepared with
      tickets := [ticket 1 840244490602814717 1780055481177956302, resignedTicket]
      activationData_eq := by decide +kernel
      sessionHash_eq := by decide +kernel }
  aggregate := activation.aggregate
  valid := by decide +kernel

def endedEntry : TraceEntry where
  traceVersion := traceFormatVersion
  step := 0
  event := .sessionStarted bothPeers
  preState := offerData.initialState
  postState := offerData.initialState
  terminal := some (.end [1])
  agreement := ⟨referenceBytes 48 2504806147997806359, ⟨[3]⟩⟩

def endedBody (activation : Activation referencePrimitives) : ReceiptBody referencePrimitives :=
  ⟨⟨activation, .completed⟩, [1], Codec.utf8 "\x7b\x7d", [endedEntry]⟩

def ownReceipt : ReceiptArtifact referencePrimitives where
  body := endedBody activation
  receiptId := ⟨referenceBytes 32 1358439121619361496⟩
  authentic := by decide +kernel

def resignedReceipt : ReceiptArtifact referencePrimitives where
  body := endedBody resignedActivation
  receiptId := ⟨referenceBytes 32 1642199845466925076⟩
  authentic := by decide +kernel

def endActions : List (StoreAction referencePrimitives) :=
  [.actor Sample.executionId 0 .activate, .actor Sample.executionId 0 (.start (ending shared)),
    .actor Sample.executionId 0 .sign,
    .actor Sample.executionId 0 (.receive (peer 2)
      (.stepSignature { startCommitment with entryHash := referenceBytes 32 1732023692569548834 }
        (referenceBytes 48 1507322415743765655)) (ending shared))]

theorem ended_eq :
    ∃ e, (createdDatabase.run (keys 1) endActions).executions.get? Sample.executionId = some e ∧
      (createdDatabase.run (keys 1) endActions).receipts = [] ∧
      e.host.db.assembleReceipt e.host.db.state = .ok ownReceipt ∧
      e.host.live = some e.host.db.state ∧ e.host.db.state.status.receiptWork = .assemble ∧
      e.host.db.state.version.toNat < 10 ∧ e.host.db.state.binding = binding ∧
      ∀ b ∈ [ownReceipt, resignedReceipt], ∀ x ∈ b.body.certificates,
        x.commitment ∈ e.host.signed (keys 1).peerId := by
  exact exists_some_of_any (by decide +kernel)

theorem readsBack_resigned : Db.ReadsBack resignedReceipt := by
  exact exists_ok_of_any (by decide +kernel)

def importing (receipt : ReceiptArtifact referencePrimitives) :
    List (StoreAction referencePrimitives) :=
  createAction :: endActions ++ [.importReceipt receipt 0]

theorem uniqueAggregates_reference : UniqueAggregates referencePrimitives := by
  intro x y message keys hx hy
  simp only [referencePrimitives, Except.ok.injEq, decide_eq_true_eq] at hx hy
  rw [hx, hy]

def identifyingBytes (a : ReceiptArtifact referencePrimitives) : List Bytes :=
  a.body.identityBytes :: a.body.header.activation.prepared.activationData.signingBytes ::
    a.body.header.activation.prepared.offer.data.signingBytes ::
      (a.body.header.activation.prepared.tickets.map fun t => t.data.signingBytes) ++
        a.body.trace.map fun e => TraceEntry.codec.encode e.normalized

theorem mem_identifyingBytes {a : ReceiptArtifact referencePrimitives}
    (h : a.body.header.terminal = .completed) {bytes : Bytes} (hbytes : bytes ∈ a.preimages) :
    bytes ∈ identifyingBytes a := by
  rcases hbytes with ((rfl | rfl | ⟨t, ht, rfl⟩) | ⟨e, he, rfl⟩) | rfl | ⟨_, _, _, hstopped, -⟩
  · simp [identifyingBytes]
  · simp [identifyingBytes]
  · exact List.mem_append_left _ (List.mem_cons_of_mem _ (List.mem_cons_of_mem _
      (List.mem_cons_of_mem _ (List.mem_map_of_mem ht))))
  · exact List.mem_append_right _ (List.mem_map_of_mem he)
  · simp [identifyingBytes]
  · simp [h] at hstopped

theorem identifyingBytes_distinct : ∀ a ∈ [ownReceipt, resignedReceipt],
    a.body.header.terminal = .completed ∧ ∀ b ∈ [ownReceipt, resignedReceipt],
      ∀ x ∈ identifyingBytes a, ∀ y ∈ identifyingBytes b,
        referencePrimitives.blake3 x = referencePrimitives.blake3 y → x = y := by
  decide +kernel

theorem run_importing (receipt : ReceiptArtifact referencePrimitives) :
    (Database.empty (keys 1).peerId).run (keys 1) (importing receipt) =
      (createdDatabase.run (keys 1) endActions).step (keys 1) (.importReceipt receipt 0) := by
  have hcreate : (Database.empty (keys 1).peerId).run (keys 1) (createAction :: endActions) =
      createdDatabase.run (keys 1) endActions := by
    rw [Database.run, List.foldl_cons, step_createAction]
    rfl
  rw [importing, Database.run_append, hcreate, Database.run, List.foldl_cons, List.foldl_nil]

theorem eq_of_importing {receipt receipt' : ReceiptArtifact referencePrimitives}
    (h : StoreAction.importReceipt receipt' nowMs ∈ importing receipt) : receipt' = receipt := by
  simp only [importing, createAction, endActions, List.mem_append, List.mem_cons, reduceCtorEq,
    or_self, List.not_mem_nil, false_or, StoreAction.importReceipt.injEq, or_false] at h
  exact h.1

theorem receipts_importing_resigned :
    ((Database.empty (keys 1).peerId).run (keys 1) (importing resignedReceipt)).receipts =
      [resignedReceipt] := by
  obtain ⟨-, -, hreceipts, -⟩ := ended_eq
  obtain ⟨d', outcome, himport, hrows⟩ :=
    Database.importReceipt_of_empty readsBack_resigned hreceipts
      (show (0 : UInt64).toNat < 2 ^ 63 by decide)
  rw [run_importing, Database.step]
  simp only [himport, hrows]

theorem importing_assumed (receipt : ReceiptArtifact referencePrimitives)
    (h : receipt ∈ [ownReceipt, resignedReceipt]) {d : Database referencePrimitives}
    (hd : d = (Database.empty (keys 1).peerId).run (keys 1) (importing receipt)) :
    ∃ e, d.executions.get? Sample.executionId = some e ∧
      Database.Unforgeable (keys 1) (Database.Presented (importing receipt) d e) e ∧
      e.host.db.assembleReceipt e.host.db.state = .ok ownReceipt ∧
      e.host.live = some e.host.db.state ∧ e.host.db.state.status.receiptWork = .assemble ∧
      e.host.db.state.version.toNat + 1 < 2 ^ 63 ∧ e.host.db.state.binding = binding := by
  obtain ⟨e, hget, hreceipts, hassemble, hlive, hwork, hversion, hbinding, hsigned⟩ := ended_eq
  rw [run_importing] at hd
  obtain ⟨hexecutions, hrows⟩ := Database.step_importReceipt (keys 1)
    (createdDatabase.run (keys 1) endActions) receipt 0
  rw [← hd] at hexecutions hrows
  rw [← hexecutions] at hget
  have hpresented : ∀ a ∈ Database.Presented (importing receipt) d e,
      a ∈ [ownReceipt, resignedReceipt] := by
    rintro a (⟨nowMs, -, himport⟩ | hrow | hown)
    · rw [eq_of_importing himport]
      exact h
    · rw [hreceipts] at hrows
      rcases hrows a hrow with hrow | rfl
      · cases hrow
      · exact h
    · rw [Except.ok.inj (hassemble.symm.trans hown)]
      exact List.mem_cons_self
  refine ⟨e, hget, ⟨uniqueAggregates_reference, ?_, ?_⟩, hassemble, hlive, hwork, by omega, hbinding⟩
  · rintro x ⟨a, ha, hx⟩ y ⟨b, hb, hy⟩ hxy
    obtain ⟨hterminal, hdistinct⟩ := identifyingBytes_distinct a (hpresented a ha)
    have hterminal' := (identifyingBytes_distinct b (hpresented b hb)).1
    exact hdistinct b (hpresented b hb) x (mem_identifyingBytes hterminal hx) y
      (mem_identifyingBytes hterminal' hy) hxy
  · exact fun a ha x hx _ => hsigned a (hpresented a ha) x hx

end Sample

open Sample in
/-- The own receipt can be imported before the Host publishes it. -/
theorem imports_never_block_publication_own : ∃ e artifact e',
    ((Database.empty (keys 1).peerId).run (keys 1)
      (importing ownReceipt)).executions.get? Sample.executionId = some e ∧
    e.host.db.assembleReceipt e.host.db.state = .ok artifact ∧
    (((Database.empty (keys 1).peerId).run (keys 1) (importing ownReceipt)).step
      (keys 1) (.actor Sample.executionId 0 .publish)).executions.get? Sample.executionId = some e' ∧
    e'.host.db.production = some artifact.receiptId := by
  obtain ⟨e, hget, hassumed, hassemble, hlive, hwork, hversion, hbinding⟩ :=
    importing_assumed ownReceipt List.mem_cons_self rfl
  have htickets : ownReceipt.body.header.activation.tickets = binding.activation.tickets := by
    decide +kernel
  have hsame : Database.SameTickets (importing ownReceipt) e := by
    intro receipt nowMs himport _ _
    rw [eq_of_importing himport, htickets, hbinding]
  have hkept := Database.imports_never_block_publication (keys 1)
    (importing ownReceipt) hget hassumed hsame
  obtain ⟨artifact, e', hpublishes⟩ := hkept.publishes 0 (by decide) hversion hlive hwork
  exact ⟨e, artifact, e', hget, hpublishes⟩

open Sample in
/-- A receipt under another signature of a ticket meets every assumption and keeps the Host from
publishing its own. -/
theorem resigned_import_blocks_publication : ∃ e,
    ((Database.empty (keys 1).peerId).run (keys 1)
      (importing resignedReceipt)).executions.get? Sample.executionId = some e ∧
    Database.Unforgeable (keys 1) (Database.Presented (importing resignedReceipt)
      ((Database.empty (keys 1).peerId).run (keys 1) (importing resignedReceipt)) e)
        e ∧
    ¬ Database.OwnReceiptKept (keys 1) (importing resignedReceipt)
      ((Database.empty (keys 1).peerId).run (keys 1) (importing resignedReceipt))
      Sample.executionId e := by
  obtain ⟨e, hget, hassumed, hassemble, hlive, hwork, hversion, hbinding⟩ :=
    importing_assumed resignedReceipt (by simp) rfl
  refine ⟨e, hget, hassumed, fun hkept => ?_⟩
  obtain ⟨artifact, e', -, hget', hproduction⟩ :=
    hkept.publishes 0 (by decide) hversion hlive hwork
  have hnone := (Database.kept_run (keys 1) (importing resignedReceipt)).intact.publish_refused hget
    hassemble hlive hwork receipts_importing_resigned (by decide +kernel) (by decide +kernel)
    (by decide +kernel) (by decide +kernel) 0 hget'
  rw [hproduction] at hnone
  cases hnone

end Arena0
