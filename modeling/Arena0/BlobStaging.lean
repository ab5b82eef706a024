import Arena0.Blobs
import Arena0.Reference

/-!
# Staged blob changes are applicable

The sandbox answers a dispatch from the durable rows overlaid with the changes staged
so far.  The store applies the changes to the same rows later, so the two step in
lockstep: after every staged change the rows of the store are the overlay.
-/

namespace Arena0

open Borsh Fallible

variable {κ : Primitives}

/-! ## The durable bytes of an object -/

namespace BlobStore

/-- The bytes of an object that its row counts as written. -/
def durableBytes (s : BlobStore) (executionId : ExecId) (hash : BlobHash) : Bytes :=
  match s.partialRow executionId hash with
  | none => []
  | some row => ((s.files (.received executionId hash)).getD []).take row.written

/-- The file of an object has the bytes its row counts. -/
def Readable (s : BlobStore) (executionId : ExecId) (hash : BlobHash) : Prop :=
  ∀ row, s.partialRow executionId hash = some row →
    ∃ content, s.files (.received executionId hash) = some content ∧
      (row.written : ℕ) ≤ content.length

/-- The file of an object that is still being received is missing. -/
def Lost (s : BlobStore) (executionId : ExecId) (hash : BlobHash) : Prop :=
  ∃ row, s.partialRow executionId hash = some row ∧ row.committed = false ∧
    s.files (.received executionId hash) = none

section

variable {s s' : BlobStore} {executionId executionId' : ExecId} {hash hash' : BlobHash}
  {row : PartialRow} {path path' : BlobPath} {content : Option Bytes}

theorem blobPartial_eq (h : s.partialRow executionId hash = some row) :
    s.blobPartial executionId hash = some ⟨row.length, row.written, row.committed⟩ := by
  rw [blobPartial, h, Option.map_some]

theorem durableBytes_of_none (h : s.partialRow executionId hash = none) :
    s.durableBytes executionId hash = [] := by
  rw [durableBytes, h]

theorem durableBytes_of_some {bytes : Bytes} (h : s.partialRow executionId hash = some row)
    (hfile : s.files (.received executionId hash) = some bytes) :
    s.durableBytes executionId hash = bytes.take row.written := by
  rw [durableBytes, h]
  simp [hfile]

@[simp] theorem files_putPartial :
    (s.putPartial executionId hash row).files = s.files := rfl

@[simp] theorem partialRow_putPartial_self :
    (s.putPartial executionId hash row).partialRow executionId hash = some row :=
  OrdMap.get?_insert_self _ _ _

theorem partialRow_putPartial_of_ne (h : (executionId', hash') ≠ (executionId, hash)) :
    (s.putPartial executionId hash row).partialRow executionId' hash' =
      s.partialRow executionId' hash' :=
  OrdMap.get?_insert_of_ne _ _ fun heq => h (toLex.injective heq)

@[simp] theorem files_putFile_self : (s.putFile path content).files path = content :=
  Function.update_self ..

theorem files_putFile_of_ne (h : path' ≠ path) :
    (s.putFile path content).files path' = s.files path' :=
  Function.update_of_ne h ..

theorem writeAt_take {bytes old : Bytes} {offset : ℕ} (h : offset ≤ old.length) :
    (writeAt old offset bytes).take (offset + bytes.length) = old.take offset ++ bytes := by
  have hzero : offset - old.length = 0 := by omega
  have hlength : (old.take offset ++ bytes).length = offset + bytes.length := by
    simp [h]
  rw [writeAt, hzero, List.replicate_zero, List.append_nil, ← hlength, List.take_left]

theorem length_writeAt {bytes old : Bytes} {offset : ℕ} (h : offset ≤ old.length) :
    offset + bytes.length ≤ (writeAt old offset bytes).length := by
  have hzero : offset - old.length = 0 := by omega
  simp only [writeAt, hzero, List.replicate_zero, List.append_nil, List.length_append,
    List.length_take]
  omega

end

/-! ## What a change does -/

theorem sqliteOf_eq_ok {value : ℕ} {column : SqliteU64} :
    sqliteOf value = .ok column ↔ (column : ℕ) = value := by
  unfold sqliteOf
  split
  · rename_i h
    rw [Except.ok.injEq, Fin.ext_iff, eq_comm]
  · rename_i h
    have := column.isLt
    simp
    omega

theorem sqliteOf_of_le {value : ℕ} (h : value ≤ maxBlobBytes) :
    ∃ column : SqliteU64, sqliteOf value = .ok column ∧ (column : ℕ) = value := by
  have hlt : value < 2 ^ 63 := lt_of_le_of_lt h (by decide)
  exact ⟨⟨value, hlt⟩, sqliteOf_eq_ok.2 rfl, rfl⟩

theorem get?_upsertBlob_of_ne {blobs : OrdMap BlobHash BlobRow} {hash hash' : BlobHash}
    {row : BlobRow} (hne : hash' ≠ hash) :
    (upsertBlob blobs hash row).get? hash' = blobs.get? hash' := by
  unfold upsertBlob
  split
  · split
    · exact OrdMap.get?_insert_of_ne _ _ hne
    · rfl
  · exact OrdMap.get?_insert_of_ne _ _ hne

theorem upsertBlob_self (blobs : OrdMap BlobHash BlobRow) (hash : BlobHash) (row : BlobRow) :
    (∃ blob, blobs.get? hash = some blob ∧ blob.linked = false ∧
        (upsertBlob blobs hash row).get? hash = some blob) ∨
      (∀ blob, blobs.get? hash = some blob → blob.linked = true) ∧
        (upsertBlob blobs hash row).get? hash = some row := by
  unfold upsertBlob
  cases hget : blobs.get? hash with
  | none => exact .inr ⟨fun _ h => (nomatch h), OrdMap.get?_insert_self _ _ _⟩
  | some old =>
    cases hlinked : old.linked with
    | false => exact .inl ⟨old, rfl, hlinked, by simpa [hlinked] using hget⟩
    | true =>
      refine .inr ⟨?_, by simp [hlinked]⟩
      rintro _ ⟨⟩
      exact hlinked

/-- What a change of one object leaves alone. -/
structure SameBeside (s s' : BlobStore) (executionId : ExecId) (hash : BlobHash) : Prop where
  rows : ∀ executionId' hash', (executionId', hash') ≠ (executionId, hash) →
    s'.partialRow executionId' hash' = s.partialRow executionId' hash'
  files : ∀ path, path ≠ .received executionId hash → s'.files path = s.files path
  blobs : ∀ hash', hash' ≠ hash → s'.tables.blobs.get? hash' = s.tables.blobs.get? hash'

/-- An append continues the row of its object and writes its bytes behind those of the row. -/
structure Appended (s s' : BlobStore) (executionId : ExecId) (hash : BlobHash) (length offset : ℕ)
    (bytes : Bytes) : Prop where
  beside : s.SameBeside s' executionId hash
  blobs : s'.tables.blobs = s.tables.blobs
  row : ∃ row, s'.partialRow executionId hash = some row ∧ (row.length : ℕ) = length ∧
    (row.written : ℕ) = offset + bytes.length ∧ row.committed = false
  content : ∃ old, s'.files (.received executionId hash) = some (writeAt old offset bytes) ∧
    (s.partialRow executionId hash = none ∧ offset = 0 ∧ old = [] ∨
      (∃ row, s.partialRow executionId hash = some row ∧ row.committed = false ∧
        (row.length : ℕ) = length ∧ (row.written : ℕ) = offset) ∧
        s.files (.received executionId hash) = some old)

section

variable {s s' : BlobStore} {executionId : ExecId} {hash : BlobHash} {length offset : ℕ}
  {bytes : Bytes}

theorem sameBeside_put {row : PartialRow} {content : Option Bytes} :
    s.SameBeside ((s.putFile (.received executionId hash) content).putPartial executionId hash row)
      executionId hash where
  rows _ _ hne := partialRow_putPartial_of_ne hne
  files _ hne := files_putFile_of_ne hne
  blobs _ _ := rfl

theorem appendBlob_eq_ok (h : s.appendBlob executionId hash length offset bytes = .ok s') :
    Appended s s' executionId hash length offset bytes := by
  unfold appendBlob at h
  dsimp only at h
  split at h
  · rename_i hrow
    simp only [bind_eq_ok, ensure_eq_ok, pure_eq_ok, sqliteOf_eq_ok] at h
    obtain ⟨_, rfl, length', hlength, written, hwritten, rfl⟩ := h
    exact ⟨sameBeside_put, rfl, ⟨_, partialRow_putPartial_self, hlength, hwritten, rfl⟩,
      [], by simp [writeAt], .inl ⟨hrow, rfl, rfl⟩⟩
  · rename_i row hrow
    simp only [bind_eq_ok, ensure_eq_ok, okOr_eq_ok, pure_eq_ok, sqliteOf_eq_ok] at h
    obtain ⟨_, ⟨hopen, hlength, hoffset⟩, old, hold, written, hwritten, rfl⟩ := h
    exact ⟨sameBeside_put, rfl, ⟨_, partialRow_putPartial_self, hlength, hwritten, hopen⟩,
      old, by simp, .inr ⟨⟨row, hrow, hopen, hlength, hoffset⟩, hold⟩⟩

theorem appendBlob_of_new (hrow : s.partialRow executionId hash = none)
    (hlength : length ≤ maxBlobBytes) (hfits : bytes.length ≤ length) :
    ∃ s', s.appendBlob executionId hash length 0 bytes = .ok s' := by
  obtain ⟨column, hcolumn, -⟩ := sqliteOf_of_le hlength
  obtain ⟨written, hwritten, -⟩ := sqliteOf_of_le (hfits.trans hlength)
  simp only [appendBlob, hrow, hcolumn, Nat.zero_add, hwritten, ok_bind, bind_eq_ok, ensure_eq_ok]
  exact ⟨_, (), trivial, rfl⟩

theorem appendBlob_of_row {row : PartialRow} (hrow : s.partialRow executionId hash = some row)
    (hopen : row.committed = false) (hlength : (row.length : ℕ) = length)
    (hoffset : (row.written : ℕ) = offset) (hbound : length ≤ maxBlobBytes)
    (hfits : offset + bytes.length ≤ length) :
    (∃ s', s.appendBlob executionId hash length offset bytes = .ok s') ∨
      s.files (.received executionId hash) = none ∧
        s.appendBlob executionId hash length offset bytes =
          .error (.io "No such file or directory (os error 2)") := by
  obtain ⟨written, hwritten, -⟩ := sqliteOf_of_le (hfits.trans hbound)
  cases hfile : s.files (.received executionId hash) with
  | none =>
    refine .inr ⟨rfl, ?_⟩
    simp [appendBlob, hrow, hopen, hlength, hoffset, hfile, ensure, okOr]
  | some old =>
    refine .inl ?_
    simp only [appendBlob, hrow, hfile, hwritten, ok_bind, bind_eq_ok, ensure_eq_ok, okOr_eq_ok]
    exact ⟨_, (), ⟨hopen, hlength, hoffset⟩, old, rfl, rfl⟩

/-- A commit marks the row of its object and gives the store the blob unless it owns one. -/
structure CommittedBlob (s s' : BlobStore) (executionId : ExecId) (hash : BlobHash) : Prop where
  beside : s.SameBeside s' executionId hash
  files : s'.files = s.files
  row : ∃ row, s.partialRow executionId hash = some row ∧ row.committed = false ∧
    row.written = row.length ∧
    s'.partialRow executionId hash = some { row with committed := true } ∧
    ((∃ blob, s.tables.blobs.get? hash = some blob ∧ blob.linked = false ∧
        s'.tables.blobs.get? hash = some blob) ∨
      (∀ blob, s.tables.blobs.get? hash = some blob → blob.linked = true) ∧
        s'.tables.blobs.get? hash = some ⟨row.length, .received executionId hash, false⟩)

theorem commitBlob_eq_ok (h : s.commitBlob executionId hash = .ok s') :
    CommittedBlob s s' executionId hash := by
  unfold commitBlob at h
  split at h
  · cases h
  · rename_i row hrow
    simp only [bind_eq_ok, ensure_eq_ok, pure_eq_ok] at h
    obtain ⟨_, ⟨hopen, hcomplete⟩, rfl⟩ := h
    refine ⟨⟨fun _ _ hne => partialRow_putPartial_of_ne hne, fun _ _ => rfl, fun hash' hne => ?_⟩,
      rfl, row, hrow, hopen, hcomplete, partialRow_putPartial_self, ?_⟩
    · exact get?_upsertBlob_of_ne hne
    · exact upsertBlob_self _ _ _

theorem commitBlob_of_row {row : PartialRow} (hrow : s.partialRow executionId hash = some row)
    (hopen : row.committed = false) (hcomplete : row.written = row.length) :
    ∃ s', s.commitBlob executionId hash = .ok s' := by
  simp only [commitBlob, hrow, bind_eq_ok, ensure_eq_ok]
  exact ⟨_, (), ⟨hopen, hcomplete⟩, rfl⟩

theorem SameBeside.durableBytes (h : s.SameBeside s' executionId hash) {executionId' : ExecId}
    {hash' : BlobHash} (hne : (executionId', hash') ≠ (executionId, hash)) :
    s'.durableBytes executionId' hash' = s.durableBytes executionId' hash' ∧
      (s.Readable executionId' hash' → s'.Readable executionId' hash') := by
  have hfile : s'.files (.received executionId' hash') = s.files (.received executionId' hash') := by
    refine h.files _ fun heq => hne ?_
    obtain ⟨rfl, rfl⟩ := BlobPath.received.inj heq
    rfl
  unfold BlobStore.durableBytes Readable
  rw [h.rows _ _ hne, hfile]
  exact ⟨rfl, id⟩

theorem Appended.durableBytes (h : Appended s s' executionId hash length offset bytes)
    (hreadable : s.Readable executionId hash) : s'.Readable executionId hash ∧
      s'.durableBytes executionId hash = s.durableBytes executionId hash ++ bytes := by
  obtain ⟨row', hrow', -, hwritten, -⟩ := h.row
  obtain ⟨old, hfile, hold⟩ := h.content
  obtain ⟨hle, hbytes⟩ : offset ≤ old.length ∧
      s.durableBytes executionId hash = old.take offset := by
    rcases hold with ⟨hrow, rfl, rfl⟩ | ⟨⟨row, hrow, -, -, rfl⟩, hold⟩
    · exact ⟨le_rfl, durableBytes_of_none hrow⟩
    · obtain ⟨content, hcontent, hle⟩ := hreadable row hrow
      obtain rfl := Option.some.inj (hold.symm.trans hcontent)
      exact ⟨hle, durableBytes_of_some hrow hold⟩
  refine ⟨fun row hrow => ⟨_, hfile, ?_⟩, ?_⟩
  · obtain rfl := Option.some.inj (hrow'.symm.trans hrow)
    rw [hwritten]
    exact length_writeAt hle
  · rw [durableBytes_of_some hrow' hfile, hwritten, writeAt_take hle, hbytes]

theorem CommittedBlob.durableBytes (h : CommittedBlob s s' executionId hash) :
    s'.durableBytes executionId hash = s.durableBytes executionId hash ∧
      (s.Readable executionId hash → s'.Readable executionId hash) := by
  obtain ⟨row, hrow, -, -, hrow', -⟩ := h.row
  unfold BlobStore.durableBytes Readable
  rw [hrow, hrow', h.files]
  refine ⟨rfl, fun hreadable _ hsome => ?_⟩
  cases hsome
  exact hreadable row rfl

theorem applyBlobChanges_concat (changes : List BlobChange) (change : BlobChange) :
    s.applyBlobChanges executionId (changes ++ [change]) =
      (s.applyBlobChanges executionId changes >>= fun s =>
        s.applyBlobChange executionId change) := by
  induction changes generalizing s with
  | nil =>
    simp only [List.nil_append, applyBlobChanges, ok_bind]
    cases s.applyBlobChange executionId change <;> rfl
  | cons first changes ih =>
    simp only [List.cons_append, applyBlobChanges]
    cases s.applyBlobChange executionId first with
    | error e => rfl
    | ok s => exact ih

end

end BlobStore

/-! ## The overlay -/

namespace Sandbox

/-- The receive state of an object over the store, after the changes of a dispatch. -/
def received (s : BlobStore) (executionId : ExecId) (changes : List BlobChange) (hash : BlobHash) :
    Receive :=
  changes.foldl (Receive.overlay hash) (Receive.ofPartial (s.blobPartial executionId hash))

def Receive.row (receive : Receive) : Option BlobPartial :=
  receive.length.map fun length => ⟨length, receive.written, receive.committed⟩

variable {s : BlobStore} {executionId : ExecId}

@[simp] theorem received_nil (hash : BlobHash) : received s executionId [] hash =
    Receive.ofPartial (s.blobPartial executionId hash) := rfl

theorem received_append (changes : List BlobChange) (change : BlobChange) (hash : BlobHash) :
    received s executionId (changes ++ [change]) hash =
      (received s executionId changes hash).overlay hash change := by
  simp [received]

theorem stagedTail_append (hash : BlobHash) (changes changes' : List BlobChange) :
    stagedTail hash (changes ++ changes') = stagedTail hash changes ++ stagedTail hash changes' :=
  List.flatMap_append ..

theorem Receive.row_ofPartial (row : Option BlobPartial) : (Receive.ofPartial row).row = row := by
  cases row <;> rfl

variable (κ s executionId) in
/-- The changes the blob imports of a dispatch can stage, each under the checks it passed. -/
inductive StagedBy : List BlobChange → Prop
  | nil : StagedBy []
  | append {changes : List BlobChange} (h : StagedBy changes) {hash : BlobHash} {length : ℕ}
      {bytes : Bytes} (hlength : length ≤ maxBlobBytes)
      (hopen : (received s executionId changes hash).committed = false)
      (hknown : ∀ known ∈ (received s executionId changes hash).length, known = length)
      (hfits : (received s executionId changes hash).written + bytes.length ≤ length) :
      StagedBy (changes ++
        [.append hash length (received s executionId changes hash).written bytes])
  | commit {changes : List BlobChange} (h : StagedBy changes) {hash : BlobHash}
      (hopen : (received s executionId changes hash).committed = false)
      (hcomplete : (received s executionId changes hash).length =
        some (received s executionId changes hash).written)
      (hdigest : κ.blake3 (s.durableBytes executionId hash ++ stagedTail hash changes) =
        hash.bytes) :
      StagedBy (changes ++ [.commit hash])

/-! ## What one import stages -/

theorem BlobScope.receiveState_eq {scope : BlobScope}
    (hview : scope.blobs = some (storeBlobView κ s executionId)) (hash : BlobHash) :
    scope.receiveState hash = .ok (received s executionId scope.stagedBlobs hash) := by
  simp only [receiveState, hview, okOr, storeBlobView, ok_bind]
  rfl

theorem BlobScope.readBlobHash_eq_ok {scope scope' : BlobScope} {memory : Bytes} {ptr : UInt32}
    {name : String} {hash : BlobHash} (h : scope.readBlobHash memory ptr name = .ok (scope', hash)) :
    scope'.blobs = scope.blobs ∧ scope'.stagedBlobs = scope.stagedBlobs := by
  simp only [readBlobHash, bind_eq_ok, pure_eq_ok, Prod.exists] at h
  obtain ⟨host, _, -, _, -, h⟩ := h
  obtain ⟨rfl, -⟩ := Prod.mk.inj h
  exact ⟨rfl, rfl⟩

theorem hashBlobPartial_eq_ok {hash digest : BlobHash} {tail : Bytes}
    (h : s.hashBlobPartial κ executionId hash tail = .ok digest) :
    digest.bytes = κ.blake3 (s.durableBytes executionId hash ++ tail) := by
  simp only [BlobStore.hashBlobPartial, bind_eq_ok, okOr_eq_ok, ensure_eq_ok, pure_eq_ok,
    BlobStore.blobPartial, Option.map_eq_some_iff] at h
  obtain ⟨_, ⟨row, hrow, rfl⟩, _, -, rfl⟩ := h
  simp only [BlobStore.durableBytes, hrow]

theorem Receive.durable_overlay (hash : BlobHash) (receive : Receive) (change : BlobChange) :
    (receive.overlay hash change).durable = receive.durable := by
  cases change <;> simp only [Receive.overlay] <;> split <;> rfl

theorem durable_received (changes : List BlobChange) (hash : BlobHash) :
    (received s executionId changes hash).durable = (s.partialRow executionId hash).isSome := by
  induction changes using List.reverseRecOn with
  | nil => simp [Receive.ofPartial, BlobStore.blobPartial]
  | append_singleton changes change ih => rw [received_append, Receive.durable_overlay, ih]

theorem BlobScope.digest_eq_ok {scope : BlobScope} {hash digest : BlobHash}
    (hview : scope.blobs = some (storeBlobView κ s executionId))
    (h : scope.digest κ hash (s.partialRow executionId hash).isSome = .ok digest) :
    digest.bytes =
      κ.blake3 (s.durableBytes executionId hash ++ stagedTail hash scope.stagedBlobs) := by
  cases hrow : s.partialRow executionId hash with
  | none =>
    simp only [BlobScope.digest, hrow] at h
    cases h
    rw [BlobStore.durableBytes_of_none hrow, List.nil_append]
  | some row =>
    simp only [BlobScope.digest, hrow, Option.isSome_some, if_true, hview, bind_eq_ok, okOr_eq_ok,
      mapError_eq_ok] at h
    obtain ⟨view, hsame, h⟩ := h
    cases hsame
    exact hashBlobPartial_eq_ok (mapError_eq_ok.1 h)

section

variable {scope scope' : BlobScope} {memory : Bytes} {code : UInt32}
  (hview : scope.blobs = some (storeBlobView κ s executionId))
  (hstaged : StagedBy κ s executionId scope.stagedBlobs)

include hview hstaged

theorem BlobScope.blobAppend_stagedBy {hashPtr attachment : UInt32} {length : UInt64}
    (h : scope.blobAppend memory hashPtr length attachment = .ok (scope', code)) :
    scope'.blobs = scope.blobs ∧ StagedBy κ s executionId scope'.stagedBlobs := by
  simp only [blobAppend, bind_eq_ok, Prod.exists] at h
  obtain ⟨host, -, _, -, read, hash, hread, h⟩ := h
  obtain ⟨hblobs, hsame⟩ := readBlobHash_eq_ok hread
  dsimp only at hblobs hsame
  rw [← hsame] at hstaged
  rw [← hblobs] at hview ⊢
  split at h
  · cases h
    exact ⟨rfl, hstaged⟩
  · rename_i hlength
    split at h
    · cases h
      exact ⟨rfl, hstaged⟩
    · rename_i bytes hattached
      rw [receiveState_eq hview, ok_bind] at h
      split at h
      · cases h
        exact ⟨rfl, hstaged⟩
      · rename_i hrange
        simp only [not_or, not_exists, not_and, not_not, not_lt, Bool.not_eq_true] at hrange
        simp only [bind_eq_ok, pure_eq_ok, Prod.mk.injEq] at h
        obtain ⟨ledger, -, rfl, -⟩ := h
        exact ⟨rfl, hstaged.append (not_lt.1 hlength) hrange.1 hrange.2.1 hrange.2.2⟩

theorem BlobScope.blobCommit_stagedBy {fuel : UInt64} {hashPtr : UInt32}
    (h : scope.blobCommit κ memory fuel hashPtr = .ok (scope', code)) :
    scope'.blobs = scope.blobs ∧ StagedBy κ s executionId scope'.stagedBlobs := by
  simp only [blobCommit, bind_eq_ok, Prod.exists] at h
  obtain ⟨host, -, _, -, read, hash, hread, receive, hreceive, h⟩ := h
  obtain ⟨hblobs, hsame⟩ := readBlobHash_eq_ok hread
  dsimp only at hblobs hsame
  rw [← hsame] at hstaged
  rw [← hblobs] at hview ⊢
  rw [receiveState_eq hview] at hreceive
  cases hreceive
  split at h
  · cases h
    exact ⟨rfl, hstaged⟩
  rename_i length hlength
  split at h
  · cases h
    exact ⟨rfl, hstaged⟩
  rename_i hopen
  split at h
  · cases h
    exact ⟨rfl, hstaged⟩
  rename_i hwritten
  simp only [bind_eq_ok] at h
  obtain ⟨_, -, digest, hdigest, h⟩ := h
  split at h
  · cases h
    exact ⟨rfl, hstaged⟩
  rename_i heq
  cases h
  obtain rfl := not_not.1 heq
  obtain rfl := not_not.1 hwritten
  refine ⟨rfl, hstaged.commit (Bool.eq_false_of_not_eq_true hopen) hlength ?_⟩
  rw [durable_received] at hdigest
  exact (digest_eq_ok hview hdigest).symm

theorem BlobScope.call_stagedBy {fromUtf8Lossy : Bytes → String} {fuel : UInt64}
    {imported : BlobImport}
    (h : scope.call κ fromUtf8Lossy memory fuel imported = .ok (scope', code)) :
    scope'.blobs = scope.blobs ∧ StagedBy κ s executionId scope'.stagedBlobs := by
  cases imported with
  | blobAppend hashPtr length attachment => exact blobAppend_stagedBy hview hstaged h
  | blobCommit hashPtr => exact blobCommit_stagedBy hview hstaged h
  | effect imported =>
    simp only [call, bind_eq_ok, pure_eq_ok, Prod.exists, Prod.mk.injEq] at h
    obtain ⟨host, _, -, rfl, -⟩ := h
    exact ⟨rfl, hstaged⟩

end

/-- Everything a dispatch stages has passed the checks of its import. -/
theorem BlobScope.run_stagedBy {fromUtf8Lossy : Bytes → String} {scope scope' : BlobScope}
    {calls : List (Bytes × UInt64 × BlobImport)}
    (hview : scope.blobs = some (storeBlobView κ s executionId))
    (hstaged : StagedBy κ s executionId scope.stagedBlobs)
    (h : scope.run κ fromUtf8Lossy calls = .ok scope') :
    scope'.blobs = some (storeBlobView κ s executionId) ∧
      StagedBy κ s executionId scope'.stagedBlobs := by
  induction calls generalizing scope with
  | nil =>
    cases h
    exact ⟨hview, hstaged⟩
  | cons c calls ih =>
    obtain ⟨memory, fuel, imported⟩ := c
    simp only [run, bind_eq_ok, Prod.exists] at h
    obtain ⟨middle, code, hcall, hrest⟩ := h
    obtain ⟨hblobs, hmiddle⟩ := call_stagedBy hview hstaged hcall
    exact ih (hblobs.trans hview) hmiddle hrest

/-! ## Lockstep -/

/-- The store after the changes against the overlay the dispatch saw. -/
structure Lockstep (s s' : BlobStore) (executionId : ExecId) (changes : List BlobChange) : Prop where
  rows : ∀ hash, s'.blobPartial executionId hash = (received s executionId changes hash).row
  /-- An object without a row has received nothing. -/
  fresh : ∀ hash, (received s executionId changes hash).length = none →
    (received s executionId changes hash).written = 0 ∧
      (received s executionId changes hash).committed = false
  /-- Of the files still written to, only one missing from the start is missing. -/
  present : ∀ hash row', s'.partialRow executionId hash = some row' → row'.committed = false →
    s'.files (.received executionId hash) = none → s.Lost executionId hash
  content : ∀ hash, s.Readable executionId hash → s'.Readable executionId hash ∧
    s'.durableBytes executionId hash =
      s.durableBytes executionId hash ++ stagedTail hash changes

theorem Lockstep.refl (s : BlobStore) (executionId : ExecId) : Lockstep s s executionId [] where
  rows hash := by rw [received_nil, Receive.row_ofPartial]
  fresh hash hlength := by
    rw [received_nil] at hlength ⊢
    cases hrow : s.blobPartial executionId hash with
    | none => exact ⟨rfl, rfl⟩
    | some row => rw [hrow] at hlength; cases hlength
  present _ row hrow hopen hfile := ⟨row, hrow, hopen, hfile⟩
  content hash hreadable := ⟨hreadable, by simp [stagedTail]⟩

theorem Lockstep.beside {s s₁ s₂ : BlobStore} {changes : List BlobChange} {change : BlobChange}
    {hash : BlobHash} (h : Lockstep s s₁ executionId changes)
    (hbeside : s₁.SameBeside s₂ executionId hash)
    (hother : ∀ hash', hash' ≠ hash → (∀ receive : Receive, receive.overlay hash' change = receive) ∧
      stagedTail hash' [change] = [])
    (hrow : s₂.blobPartial executionId hash =
      (received s executionId (changes ++ [change]) hash).row)
    (hlength : (received s executionId (changes ++ [change]) hash).length ≠ none)
    (hpresent : ∀ row', s₂.partialRow executionId hash = some row' → row'.committed = false →
      s₂.files (.received executionId hash) = none → s.Lost executionId hash)
    (hcontent : s.Readable executionId hash → s₂.Readable executionId hash ∧
      s₂.durableBytes executionId hash =
        s.durableBytes executionId hash ++ stagedTail hash (changes ++ [change])) :
    Lockstep s s₂ executionId (changes ++ [change]) := by
  have hne : ∀ {hash'}, hash' ≠ hash → (executionId, hash') ≠ (executionId, hash) :=
    fun hne heq => hne (Prod.mk.inj heq).2
  have hsame : ∀ {hash'}, hash' ≠ hash →
      received s executionId (changes ++ [change]) hash' = received s executionId changes hash' :=
    fun hne => by rw [received_append, (hother _ hne).1]
  refine ⟨fun hash' => ?_, fun hash' hnone => ?_, fun hash' row' hsome hopen hnone => ?_,
    fun hash' hreadable => ?_⟩ <;> by_cases hhash : hash' = hash
  · rw [hhash, hrow]
  · rw [hsame hhash, ← h.rows hash', BlobStore.blobPartial, BlobStore.blobPartial,
      hbeside.rows _ _ (hne hhash)]
  · exact absurd (hhash ▸ hnone) hlength
  · rw [hsame hhash] at hnone ⊢
    exact h.fresh hash' hnone
  · subst hhash
    exact hpresent row' hsome hopen hnone
  · rw [hbeside.rows _ _ (hne hhash)] at hsome
    refine h.present hash' row' hsome hopen ?_
    rwa [hbeside.files _ (by simpa using hhash)] at hnone
  · subst hhash
    exact hcontent hreadable
  · obtain ⟨hbytes, hreads⟩ := hbeside.durableBytes (hne hhash)
    obtain ⟨hreadable', hbytes'⟩ := h.content hash' hreadable
    rw [hbytes, hbytes', stagedTail_append, (hother hash' hhash).2, List.append_nil]
    exact ⟨hreads hreadable', rfl⟩

section

variable {s s₁ s₂ : BlobStore} {changes : List BlobChange} {hash : BlobHash} {length : ℕ}
  {bytes : Bytes}

theorem Lockstep.append (h : Lockstep s s₁ executionId changes)
    (hopen : (received s executionId changes hash).committed = false)
    (happended : s₁.Appended s₂ executionId hash length
      (received s executionId changes hash).written bytes) :
    Lockstep s s₂ executionId
      (changes ++ [.append hash length (received s executionId changes hash).written bytes]) := by
  obtain ⟨row, hrow, hlength, hwritten, hcommitted⟩ := happended.row
  obtain ⟨old, hfile, -⟩ := happended.content
  refine h.beside happended.beside ?_ ?_ ?_ ?_ ?_
  · intro hash' hne
    have hne' : hash ≠ hash' := Ne.symm hne
    exact ⟨fun receive => if_neg hne', by simp [stagedTail, hne']⟩
  · rw [BlobStore.blobPartial_eq hrow, received_append]
    simp [Receive.overlay, Receive.row, hlength, hwritten, hcommitted, hopen]
  · simp [received_append, Receive.overlay]
  · intro _ _ _ hnone
    rw [hfile] at hnone
    cases hnone
  · intro hreadable
    obtain ⟨hreadable', hbytes⟩ := h.content hash hreadable
    obtain ⟨hreads, hbytes'⟩ := happended.durableBytes hreadable'
    rw [hbytes', hbytes, stagedTail_append]
    exact ⟨hreads, by simp [stagedTail]⟩

theorem Lockstep.commit (h : Lockstep s s₁ executionId changes)
    (hcommitted : s₁.CommittedBlob s₂ executionId hash) :
    Lockstep s s₂ executionId (changes ++ [.commit hash]) := by
  obtain ⟨row, hrow, -, -, hrow', -⟩ := hcommitted.row
  have hreceived := (h.rows hash).symm.trans (BlobStore.blobPartial_eq hrow)
  obtain ⟨length, hlength, hpartial⟩ := Option.map_eq_some_iff.1 hreceived
  obtain ⟨rfl, hwritten, -⟩ := BlobPartial.mk.inj hpartial
  refine h.beside hcommitted.beside ?_ ?_ ?_ ?_ ?_
  · intro hash' hne
    exact ⟨fun receive => if_neg (Ne.symm hne), by simp [stagedTail]⟩
  · rw [BlobStore.blobPartial_eq hrow', received_append]
    simp [Receive.overlay, Receive.row, hlength, hwritten]
  · simp [received_append, Receive.overlay, hlength]
  · intro row₂ hrow₂ hopen _
    obtain rfl := Option.some.inj (hrow'.symm.trans hrow₂)
    cases hopen
  · intro hreadable
    obtain ⟨hreadable', hbytes⟩ := h.content hash hreadable
    obtain ⟨hbytes', hreads⟩ := hcommitted.durableBytes
    rw [hbytes', hbytes, stagedTail_append]
    exact ⟨hreads hreadable', by simp [stagedTail]⟩

theorem Lockstep.partialRow (h : Lockstep s s₁ executionId changes) (hash : BlobHash) :
    (received s executionId changes hash).length = none ∧
        s₁.partialRow executionId hash = none ∨
      ∃ row, s₁.partialRow executionId hash = some row ∧
        (received s executionId changes hash).length = some (row.length : ℕ) ∧
        (row.written : ℕ) = (received s executionId changes hash).written ∧
        row.committed = (received s executionId changes hash).committed := by
  have hrows := h.rows hash
  cases hrow : s₁.partialRow executionId hash with
  | none =>
    rw [BlobStore.blobPartial, hrow, Option.map_none] at hrows
    exact .inl ⟨by simpa [Receive.row] using hrows.symm, rfl⟩
  | some row =>
    rw [BlobStore.blobPartial_eq hrow] at hrows
    obtain ⟨length, hlength, hpartial⟩ := Option.map_eq_some_iff.1 hrows.symm
    obtain ⟨rfl, hwritten, hcommitted⟩ := BlobPartial.mk.inj hpartial
    exact .inr ⟨row, rfl, hlength, hwritten.symm, hcommitted.symm⟩

theorem Lockstep.applies_append (h : Lockstep s s₁ executionId changes)
    (hlength : length ≤ maxBlobBytes)
    (hopen : (received s executionId changes hash).committed = false)
    (hknown : ∀ known ∈ (received s executionId changes hash).length, known = length)
    (hfits : (received s executionId changes hash).written + bytes.length ≤ length) :
    (∃ s₂, s₁.applyBlobChange executionId (.append hash length
        (received s executionId changes hash).written bytes) = .ok s₂ ∧
      Lockstep s s₂ executionId
        (changes ++ [.append hash length (received s executionId changes hash).written bytes])) ∨
      s₁.applyBlobChange executionId (.append hash length
          (received s executionId changes hash).written bytes) =
            .error (.io "No such file or directory (os error 2)") ∧ s.Lost executionId hash := by
  rcases h.partialRow hash with ⟨hnone, hrow⟩ | ⟨row, hrow, hrowLength, hwritten, hcommitted⟩
  · have hzero := (h.fresh hash hnone).1
    have hle : bytes.length ≤ length := by omega
    obtain ⟨s₂, hs₂⟩ := BlobStore.appendBlob_of_new hrow hlength hle
    rw [← hzero] at hs₂
    exact .inl ⟨s₂, hs₂, h.append hopen (BlobStore.appendBlob_eq_ok hs₂)⟩
  · have hsame : (row.length : ℕ) = length := hknown _ (by simp [hrowLength])
    rcases BlobStore.appendBlob_of_row hrow (hcommitted.trans hopen) hsame hwritten hlength hfits with
      ⟨s₂, hs₂⟩ | ⟨hfile, herror⟩
    · exact .inl ⟨s₂, hs₂, h.append hopen (BlobStore.appendBlob_eq_ok hs₂)⟩
    · exact .inr ⟨herror, h.present hash row hrow (hcommitted.trans hopen) hfile⟩

theorem Lockstep.applies_commit (h : Lockstep s s₁ executionId changes)
    (hopen : (received s executionId changes hash).committed = false)
    (hcomplete : (received s executionId changes hash).length =
      some (received s executionId changes hash).written) :
    ∃ s₂, s₁.applyBlobChange executionId (.commit hash) = .ok s₂ ∧
      Lockstep s s₂ executionId (changes ++ [.commit hash]) := by
  rcases h.partialRow hash with ⟨hnone, -⟩ | ⟨row, hrow, hlength, hwritten, hcommitted⟩
  · rw [hcomplete] at hnone
    cases hnone
  · have hsame : row.written = row.length := by
      rw [hcomplete, Option.some.injEq] at hlength
      exact Fin.ext (hwritten.trans hlength)
    obtain ⟨s₂, hs₂⟩ := BlobStore.commitBlob_of_row hrow (hcommitted.trans hopen) hsame
    exact ⟨s₂, hs₂, h.commit (BlobStore.commitBlob_eq_ok hs₂)⟩

/-- The store applies what a dispatch staged, in step with the overlay; it can fail only for want
of a file. -/
theorem StagedBy.applies (h : StagedBy κ s executionId changes) :
    (∃ s', s.applyBlobChanges executionId changes = .ok s' ∧ Lockstep s s' executionId changes) ∨
      s.applyBlobChanges executionId changes =
          .error (.io "No such file or directory (os error 2)") ∧
        ∃ hash, s.Lost executionId hash := by
  induction h with
  | nil => exact .inl ⟨s, rfl, .refl s executionId⟩
  | append h hlength hopen hknown hfits ih =>
    rw [BlobStore.applyBlobChanges_concat]
    rcases ih with ⟨s₁, hs₁, hstep⟩ | ⟨herror, hmissing⟩
    · rw [hs₁, ok_bind]
      rcases hstep.applies_append hlength hopen hknown hfits with hok | ⟨herror, hmissing⟩
      · exact .inl hok
      · exact .inr ⟨herror, _, hmissing⟩
    · exact .inr ⟨by rw [herror]; rfl, hmissing⟩
  | commit h hopen hcomplete hdigest ih =>
    rw [BlobStore.applyBlobChanges_concat]
    rcases ih with ⟨s₁, hs₁, hstep⟩ | ⟨herror, hmissing⟩
    · rw [hs₁, ok_bind]
      exact .inl (hstep.applies_commit hopen hcomplete)
    · exact .inr ⟨by rw [herror]; rfl, hmissing⟩

theorem StagedBy.fits (h : StagedBy κ s executionId changes) {offset : ℕ}
    (hmem : .append hash length offset bytes ∈ changes) :
    offset + bytes.length ≤ length ∧ length ≤ maxBlobBytes := by
  induction h with
  | nil => cases hmem
  | append h hlength hopen hknown hfits ih =>
    rcases List.mem_append.1 hmem with hmem | hmem
    · exact ih hmem
    · obtain ⟨rfl, rfl, rfl, rfl⟩ := BlobChange.append.inj (List.mem_singleton.1 hmem)
      exact ⟨hfits, hlength⟩
  | commit h hopen hcomplete hdigest ih =>
    rcases List.mem_append.1 hmem with hmem | hmem
    · exact ih hmem
    · cases List.mem_singleton.1 hmem

theorem StagedBy.bounded (h : StagedBy κ s executionId changes)
    (hs : ∀ row, s.blobPartial executionId hash = some row →
      row.written ≤ row.length ∧ row.length ≤ maxBlobBytes) {row : BlobPartial}
    (hrow : (received s executionId changes hash).row = some row) :
    row.written ≤ row.length ∧ row.length ≤ maxBlobBytes := by
  induction h generalizing row with
  | nil =>
    rw [received_nil, Receive.row_ofPartial] at hrow
    exact hs row hrow
  | @append changes h hash' length bytes hlength hopen hknown hfits ih =>
    rw [received_append] at hrow
    by_cases hhash : hash' = hash
    · subst hhash
      simp only [Receive.overlay, if_true, Receive.row, Option.map_some, Option.some.injEq] at hrow
      subst hrow
      exact ⟨hfits, hlength⟩
    · rw [Receive.overlay, if_neg hhash] at hrow
      exact ih hrow
  | @commit changes h hash' hopen hcomplete hdigest ih =>
    rw [received_append] at hrow
    by_cases hhash : hash' = hash
    · subst hhash
      simp only [Receive.overlay, if_true, Receive.row, hcomplete, Option.map_some,
        Option.some.injEq] at hrow
      subst hrow
      have hbound := ih (show (received s executionId changes hash').row = some ⟨_, _, _⟩ by
        rw [Receive.row, hcomplete, Option.map_some])
      exact hbound
    · rw [Receive.overlay, if_neg hhash] at hrow
      exact ih hrow

theorem StagedBy.digest (h : StagedBy κ s executionId changes) {before after : List BlobChange}
    (hchanges : changes = before ++ .commit hash :: after) :
    κ.blake3 (s.durableBytes executionId hash ++ stagedTail hash before) = hash.bytes := by
  induction h generalizing after with
  | nil => simp at hchanges
  | append h hlength hopen hknown hfits ih =>
    rcases List.eq_nil_or_concat after with rfl | ⟨after, last, rfl⟩
    · cases (List.append_inj' hchanges rfl).2
    · rw [List.concat_eq_append, ← List.cons_append, ← List.append_assoc] at hchanges
      exact ih (List.append_inj' hchanges rfl).1
  | commit h hopen hcomplete hdigest ih =>
    rcases List.eq_nil_or_concat after with rfl | ⟨after, last, rfl⟩
    · obtain ⟨rfl, hlast⟩ := List.append_inj' hchanges rfl
      cases hlast
      exact hdigest
    · rw [List.concat_eq_append, ← List.cons_append, ← List.append_assoc] at hchanges
      exact ih (List.append_inj' hchanges rfl).1

end

variable (κ) in
/-- What holds of the changes a dispatch staged over a durable store. -/
structure StagedApply (s : BlobStore) (executionId : ExecId) (scope : BlobScope) : Prop where
  /-- The store applies them whenever the objects being received have their files. -/
  applies : (∀ hash, ¬ s.Lost executionId hash) →
    ∃ s', s.applyBlobChanges executionId scope.stagedBlobs = .ok s'
  /-- Over any rows and files, only a missing file can make it fail. -/
  refused : ∀ error, s.applyBlobChanges executionId scope.stagedBlobs = .error error →
    error = .io "No such file or directory (os error 2)"
  /-- The rows become what the dispatch saw last. -/
  rows : ∀ s', s.applyBlobChanges executionId scope.stagedBlobs = .ok s' → ∀ hash, ∃ receive,
    scope.receiveState hash = .ok receive ∧ s'.blobPartial executionId hash =
      receive.length.map fun length => ⟨length, receive.written, receive.committed⟩
  fits : ∀ hash length offset bytes, .append hash length offset bytes ∈ scope.stagedBlobs →
    offset + bytes.length ≤ length ∧ length ≤ maxBlobBytes
  bounded : (∀ hash row, s.blobPartial executionId hash = some row →
      row.written ≤ row.length ∧ row.length ≤ maxBlobBytes) →
    ∀ s', s.applyBlobChanges executionId scope.stagedBlobs = .ok s' → ∀ hash row,
      s'.blobPartial executionId hash = some row →
        row.written ≤ row.length ∧ row.length ≤ maxBlobBytes
  /-- A commit is staged only over the bytes its hash names: those durable when the dispatch began
  and those it appended before. -/
  digests : ∀ before after hash, scope.stagedBlobs = before ++ .commit hash :: after →
    κ.blake3 (s.durableBytes executionId hash ++ stagedTail hash before) = hash.bytes

end Sandbox

open Sandbox in
/-- The blob changes a dispatch stages through any sequence of imports are applicable to the store
it saw. -/
theorem staged_blob_changes_apply (s : BlobStore) (executionId : ExecId)
    (fromUtf8Lossy : Bytes → String) {scope scope' : BlobScope}
    (hview : scope.blobs = some (storeBlobView κ s executionId)) (hempty : scope.stagedBlobs = [])
    {calls : List (Bytes × UInt64 × BlobImport)}
    (hrun : scope.run κ fromUtf8Lossy calls = .ok scope') : StagedApply κ s executionId scope' := by
  obtain ⟨hview', hstaged⟩ := BlobScope.run_stagedBy hview (by rw [hempty]; exact .nil) hrun
  have hrows : ∀ s', s.applyBlobChanges executionId scope'.stagedBlobs = .ok s' → ∀ hash,
      s'.blobPartial executionId hash =
        (received s executionId scope'.stagedBlobs hash).row := by
    intro s' hs' hash
    rcases hstaged.applies with ⟨_, happlied, hstep⟩ | ⟨herror, -⟩
    · obtain rfl := Except.ok.inj (hs'.symm.trans happlied)
      exact hstep.rows hash
    · cases hs'.symm.trans herror
  refine ⟨fun hfiles => ?_, fun error herror => ?_, fun s' hs' hash => ?_,
    fun _ _ _ _ => hstaged.fits, fun hs s' hs' hash row hrow => ?_, fun _ _ _ => hstaged.digest⟩
  · rcases hstaged.applies with ⟨s', hs', -⟩ | ⟨-, hash, hlost⟩
    · exact ⟨s', hs'⟩
    · exact absurd hlost (hfiles hash)
  · rcases hstaged.applies with ⟨s', hs', -⟩ | ⟨herror', -⟩
    · cases herror.symm.trans hs'
    · exact Except.error.inj (herror.symm.trans herror')
  · exact ⟨_, BlobScope.receiveState_eq hview' hash, hrows s' hs' hash⟩
  · rw [hrows s' hs' hash] at hrow
    exact hstaged.bounded (hs hash) hrow

namespace Sample

def emptyBlobStore : BlobStore := ⟨⟨.empty, [], .empty⟩, fun _ => none⟩

def oneByteHash : BlobHash := ⟨referencePrimitives.blake3 [7]⟩

open Sandbox in
def receivingScope : BlobScope where
  host := ⟨.dispatch, .local, 0, ⟨10, 1000, 10, 1000⟩, [], .new, none, [], none, none⟩
  blobs := some (storeBlobView referencePrimitives emptyBlobStore executionId)
  stagedBlobs := []
  attachment := some [7]
  hashPerByte := 1

open Sandbox in
/-- The guest receives the byte and commits it; the hash lies at the start of its memory. -/
def receivingCalls : List (Bytes × UInt64 × BlobImport) :=
  [(oneByteHash.bytes.bytes, 100, .blobAppend 0 1 0), (oneByteHash.bytes.bytes, 100, .blobCommit 0)]

end Sample

open Sample Sandbox in
theorem staged_blob_changes_apply_receiving : ∃ scope',
    receivingScope.run referencePrimitives (fun _ => "") receivingCalls = .ok scope' ∧
      scope'.stagedBlobs = [.append oneByteHash 1 0 [7], .commit oneByteHash] ∧
      StagedApply referencePrimitives emptyBlobStore executionId scope' := by
  have hall : (receivingScope.run referencePrimitives (fun _ => "") receivingCalls).toOption.any
      (·.stagedBlobs = [.append oneByteHash 1 0 [7], .commit oneByteHash]) = true := by
    decide +kernel
  obtain ⟨scope', hrun, hstaged⟩ := exists_ok_of_any hall
  exact ⟨scope', hrun, hstaged,
    staged_blob_changes_apply emptyBlobStore executionId _ rfl rfl hrun⟩

end Arena0
