import Arena0.BlobStaging

/-!
# Blob files across crashes

The tables of the store and the files of the blob directory are not written
atomically together.  A transaction that fails or is interrupted takes its rows
back and leaves what it wrote to the files; a crash drops the running dispatches and
copies and ends in the sweep of the next opening.
-/

namespace Arena0

open Borsh Fallible Sandbox

variable {κ : Primitives} {changes : List BlobChange} {path : BlobPath} {row : BlobRow}

/-! ## Interrupted transactions and the sweep -/

namespace BlobStore

/-- What an interrupted change leaves: any file or none for an object without a row, and otherwise
the bytes before the offset and anything behind them. -/
def torn (s : BlobStore) (executionId : ExecId) (left : Option Bytes) : BlobChange → BlobStore
  | .append hash length offset _ =>
    let path := BlobPath.received executionId hash
    match s.partialRow executionId hash with
    | none => if offset = 0 then s.putFile path left else s
    | some row =>
      if row.committed = false ∧ (row.length : ℕ) = length ∧ (row.written : ℕ) = offset then
        s.putFile path ((s.files path).map fun old => old.take offset ++ left.getD [])
      else s
  | .commit _ => s

/-- The store inside a transaction that is interrupted after `applied` changes, or that fails at
one of them. -/
def interrupted (executionId : ExecId) (left : Option Bytes) (s : BlobStore) :
    List BlobChange → ℕ → BlobStore
  | [], _ => s
  | change :: _, 0 => s.torn executionId left change
  | change :: changes, applied + 1 =>
    match s.applyBlobChange executionId change with
    | .ok s' => interrupted executionId left s' changes applied
    | .error _ => s

/-- `ROLLBACK` takes back the rows and no file. -/
def rollBack (s failed : BlobStore) : BlobStore := { s with files := failed.files }

def retained (tables : BlobTables) : List BlobPath :=
  tables.blobs.entries.map (fun p => p.2.path) ++
    (tables.blobPartials.entries.filter fun p => !p.2.committed).map fun p =>
      .received (ofLex p.1).1 (ofLex p.1).2

/-- The files the opening removes: every temporary copy and what no row refers to. -/
def sweeps (tables : BlobTables) : BlobPath → Bool
  | .copy _ => true
  | .received executionId hash => .received executionId hash ∉ retained tables
  | .owned hash => .owned hash ∉ retained tables
  | .other _ => false

/-- Sweep the blob directory; a sweep that fails has reached only some of the files. -/
def sweepBlobFiles (s : BlobStore) (reached : BlobPath → Bool) : BlobStore :=
  { s with files := fun path =>
      if sweeps s.tables path = true ∧ reached path = true then none else s.files path }

end BlobStore

/-! ## A Host that receives, copies and links -/

/-- The store with what runs over it: the dispatches whose changes are staged and the copies being
written.  `appended` records the bytes of the committed appends of each object. -/
structure BlobHost where
  store : BlobStore
  staged : ExecId → Option (List BlobChange)
  copies : UInt64 → Option Bytes
  appended : ExecId → BlobHash → Bytes

def recordAppends (appended : ExecId → BlobHash → Bytes) (executionId : ExecId)
    (changes : List BlobChange) : ExecId → BlobHash → Bytes :=
  Function.update appended executionId fun hash =>
    appended executionId hash ++ stagedTail hash changes

inductive PersistOutcome where
  | committed
  | failed (applied : ℕ) (left : Option Bytes)

inductive BlobAction where
  /-- A dispatch of the execution runs and stages its changes. -/
  | dispatch (executionId : ExecId) (host : HostState) (attachment : Option Bytes)
      (hashPerByte : UInt64) (calls : List (Bytes × UInt64 × BlobImport))
  | discard (executionId : ExecId)
  | persist (executionId : ExecId) (outcome : PersistOutcome)
  | copyOpen (token : UInt64)
  | copyWrite (token : UInt64) (bytes : Bytes)
  | copyFinish (token : UInt64) (inserted : Bool)
  | copyFail (token : UInt64)
  /-- `content` is what streaming the file gave; the file may change meanwhile. -/
  | linkBlob (path : BlobPath) (content : Bytes)
  /-- A file outside the blob directory changes. -/
  | external (path : String) (content : Option Bytes)
  /-- The process ends at any point and the store is opened again; unsynced copies are torn. -/
  | reopen (torn : UInt64 → Option Bytes) (reached : BlobPath → Bool)

namespace BlobHost

def initial : BlobHost := ⟨⟨⟨.empty, [], .empty⟩, fun _ => none⟩, fun _ => none, fun _ => none,
  fun _ _ => []⟩

def failPersist (h : BlobHost) (executionId : ExecId) (changes : List BlobChange) (applied : ℕ)
    (left : Option Bytes) : BlobHost :=
  let failed := BlobStore.interrupted executionId left h.store changes applied
  { h with
    staged := Function.update h.staged executionId none
    store := h.store.rollBack failed }

def persist (h : BlobHost) (executionId : ExecId) (outcome : PersistOutcome) : BlobHost :=
  match h.staged executionId, outcome with
  | none, _ => h
  | some changes, .failed applied left => h.failPersist executionId changes applied left
  | some changes, .committed =>
    match h.store.applyBlobChanges executionId changes with
    | .error _ => h.failPersist executionId changes changes.length none
    | .ok store =>
      { h with
        store := store
        staged := Function.update h.staged executionId none
        appended := recordAppends h.appended executionId changes }

/-- Publish a finished copy unless its content is stored. -/
def copyFinish (κ : Primitives) (h : BlobHost) (token : UInt64) (inserted : Bool) : BlobHost :=
  match h.copies token with
  | none => h
  | some content =>
    let copies := Function.update h.copies token none
    let hash : BlobHash := ⟨κ.blake3 content⟩
    let removed := h.store.putFile (.copy token) none
    match h.store.tables.blobs.get? hash, sqliteOf content.length with
    | none, .ok length =>
      -- the rename comes before the row
      let renamed := removed.putFile (.owned hash) (some content)
      let blobs := if inserted then h.store.tables.blobs.insert hash ⟨length, .owned hash, false⟩
        else h.store.tables.blobs
      { h with copies := copies, store := { renamed with tables := { h.store.tables with
          blobs := blobs } } }
    | none, .error _ =>
      { h with copies := copies, store := removed.putFile (.owned hash) (some content) }
    | some _, _ => { h with copies := copies, store := removed }

def copyWrite (h : BlobHost) (token : UInt64) (bytes : Bytes) : BlobHost :=
  match h.copies token with
  | none => h
  | some content =>
    if maxBlobBytes < content.length + bytes.length then
      { h with copies := Function.update h.copies token none
               store := h.store.putFile (.copy token) none }
    else
      { h with copies := Function.update h.copies token (some (content ++ bytes))
               store := h.store.putFile (.copy token) (some (content ++ bytes)) }

def linkBlob (κ : Primitives) (h : BlobHost) (path : BlobPath) (content : Bytes) : BlobHost :=
  if maxBlobBytes < content.length then h
  else match sqliteOf content.length with
  | .error _ => h
  | .ok length =>
    { h with store := { h.store with tables := { h.store.tables with
        blobs := BlobStore.upsertBlob h.store.tables.blobs ⟨κ.blake3 content⟩
          ⟨length, path, true⟩ } } }

def step (κ : Primitives) (fromUtf8Lossy : Bytes → String) (h : BlobHost) : BlobAction → BlobHost
  | .dispatch executionId host attachment hashPerByte calls =>
    let scope : BlobScope :=
      ⟨host, some (storeBlobView κ h.store executionId), [], attachment, hashPerByte⟩
    match scope.run κ fromUtf8Lossy calls with
    | .ok scope =>
      { h with staged := Function.update h.staged executionId (some scope.stagedBlobs) }
    | .error _ => { h with staged := Function.update h.staged executionId none }
  | .discard executionId => { h with staged := Function.update h.staged executionId none }
  | .persist executionId outcome => h.persist executionId outcome
  | .copyOpen token =>
    -- `create_new` refuses a name in use
    if h.store.files (.copy token) = none then
      { h with copies := Function.update h.copies token (some [])
               store := h.store.putFile (.copy token) (some []) }
    else h
  | .copyWrite token bytes => h.copyWrite token bytes
  | .copyFinish token inserted => h.copyFinish κ token inserted
  | .copyFail token =>
    match h.copies token with
    | none => h
    | some _ => { h with copies := Function.update h.copies token none
                         store := h.store.putFile (.copy token) none }
  | .linkBlob path content => h.linkBlob κ path content
  | .external path content => { h with store := h.store.putFile (.other path) content }
  | .reopen torn reached =>
    let crashed : BlobStore := { h.store with files := fun
      | .copy token => if (h.copies token).isSome then torn token else h.store.files (.copy token)
      | path => h.store.files path }
    ⟨crashed.sweepBlobFiles reached, fun _ => none, fun _ => none, h.appended⟩

def run (κ : Primitives) (fromUtf8Lossy : Bytes → String) (h : BlobHost)
    (actions : List BlobAction) : BlobHost :=
  actions.foldl (step κ fromUtf8Lossy) h

end BlobHost

/-! ## What the rows say about the files -/

namespace BlobStore

def Receiving (s : BlobStore) (executionId : ExecId) (hash : BlobHash) : Prop :=
  ∀ row, s.partialRow executionId hash = some row → row.committed = false

/-- The rows and the files of a store that has received `appended`. -/
structure Kept (κ : Primitives) (s : BlobStore) (appended : ExecId → BlobHash → Bytes) : Prop where
  /-- An owned blob is a copy or a committed object. -/
  owned : ∀ hash row, s.tables.blobs.get? hash = some row → row.linked = false →
    row.path = .owned hash ∨ ∃ executionId, row.path = .received executionId hash ∧
      ¬ s.Receiving executionId hash
  bytes : ∀ hash row, s.tables.blobs.get? hash = some row → row.linked = false →
    ∃ content, s.files row.path = some content ∧ (row.length : ℕ) ≤ content.length ∧
      κ.blake3 (content.take row.length) = hash.bytes
  receiving : ∀ executionId hash, s.Receiving executionId hash →
    s.Readable executionId hash ∧ s.durableBytes executionId hash = appended executionId hash

def Stays (s s' : BlobStore) : Prop :=
  ∀ hash row, s.tables.blobs.get? hash = some row → row.linked = false →
    s'.tables.blobs.get? hash = some row ∧ s'.files row.path = s.files row.path

theorem Stays.refl (s : BlobStore) : s.Stays s := fun _ _ hrow _ => ⟨hrow, rfl⟩

theorem Stays.trans {s s' s'' : BlobStore} (h : s.Stays s') (h' : s'.Stays s'') : s.Stays s'' := by
  intro hash row hrow hlinked
  obtain ⟨hrow', hfile'⟩ := h hash row hrow hlinked
  obtain ⟨hrow'', hfile''⟩ := h' hash row hrow' hlinked
  exact ⟨hrow'', hfile''.trans hfile'⟩

section

variable {s s' : BlobStore} {executionId : ExecId} {hash : BlobHash} {length offset : ℕ}
  {bytes : Bytes} {appended : ExecId → BlobHash → Bytes}

theorem recordAppends_self (changes : List BlobChange) :
    recordAppends appended executionId changes executionId hash =
      appended executionId hash ++ stagedTail hash changes := by
  rw [recordAppends, Function.update_self]

theorem recordAppends_of_nil {executionId' : ExecId}
    (h : executionId' = executionId → stagedTail hash changes = []) :
    recordAppends appended executionId changes executionId' hash = appended executionId' hash := by
  by_cases hsame : executionId' = executionId
  · subst hsame
    rw [recordAppends_self, h rfl, List.append_nil]
  · rw [recordAppends, Function.update_of_ne hsame]

theorem recordAppends_append (changes changes' : List BlobChange) :
    recordAppends (recordAppends appended executionId changes) executionId changes' =
      recordAppends appended executionId (changes ++ changes') := by
  funext executionId' hash'
  by_cases hsame : executionId' = executionId
  · subst hsame
    rw [recordAppends_self, recordAppends_self, recordAppends_self, stagedTail_append,
      List.append_assoc]
  · simp [recordAppends, Function.update_of_ne hsame]

private theorem receiving_of_open {row : PartialRow}
    (hrow : s.partialRow executionId hash = some row)
    (hopen : row.committed = false) : s.Receiving executionId hash := by
  intro _ hsome
  obtain rfl := Option.some.inj (hrow.symm.trans hsome)
  exact hopen

private theorem Appended.receiving (h : Appended s s' executionId hash length offset bytes) :
    s.Receiving executionId hash := by
  intro row hrow
  obtain ⟨old, -, ⟨hnone, -⟩ | ⟨⟨row', hrow', hopen, -⟩, -⟩⟩ := h.content
  · cases hnone.symm.trans hrow
  · obtain rfl := Option.some.inj (hrow'.symm.trans hrow)
    exact hopen

private theorem SameBeside.receiving (h : s.SameBeside s' executionId hash) {executionId' : ExecId}
    {hash' : BlobHash} (hne : (executionId', hash') ≠ (executionId, hash)) :
    s'.Receiving executionId' hash' ↔ s.Receiving executionId' hash' := by
  rw [Receiving, Receiving, h.rows _ _ hne]

theorem Kept.path_ne (h : Kept κ s appended) {blob : BlobHash}
    (hrow : s.tables.blobs.get? blob = some row) (hlinked : row.linked = false)
    (hreceiving : s.Receiving executionId hash) : row.path ≠ .received executionId hash := by
  intro hpath
  rcases h.owned blob row hrow hlinked with hpath' | ⟨executionId', hpath', hdone⟩
  · cases hpath.symm.trans hpath'
  · obtain ⟨rfl, rfl⟩ := BlobPath.received.inj (hpath.symm.trans hpath')
    exact hdone hreceiving

theorem Kept.append (h : Kept κ s appended)
    (happended : Appended s s' executionId hash length offset bytes) :
    Kept κ s' (recordAppends appended executionId [.append hash length offset bytes]) ∧
      s.Stays s' := by
  have hreceiving := happended.receiving
  have hfile : ∀ blob row, s.tables.blobs.get? blob = some row → row.linked = false →
      s'.files row.path = s.files row.path := fun blob row hrow hlinked =>
    happended.beside.files _ (h.path_ne hrow hlinked hreceiving)
  refine ⟨⟨fun blob row hrow hlinked => ?_, fun blob row hrow hlinked => ?_,
    fun executionId' hash' hreceiving' => ?_⟩, fun blob row hrow hlinked =>
      ⟨by rw [happended.blobs, hrow], hfile blob row hrow hlinked⟩⟩
  · rw [happended.blobs] at hrow
    refine (h.owned blob row hrow hlinked).imp id ?_
    rintro ⟨executionId', hpath, hdone⟩
    refine ⟨executionId', hpath, ?_⟩
    rwa [happended.beside.receiving]
    rintro ⟨⟩
    exact hdone hreceiving
  · rw [happended.blobs] at hrow
    rw [hfile blob row hrow hlinked]
    exact h.bytes blob row hrow hlinked
  · by_cases hsame : (executionId', hash') = (executionId, hash)
    · obtain ⟨rfl, rfl⟩ := Prod.mk.inj hsame
      obtain ⟨hreadable, hbytes⟩ := h.receiving executionId' hash' hreceiving
      rw [recordAppends_self, ← hbytes]
      simpa [stagedTail] using happended.durableBytes hreadable
    · obtain ⟨hbytes, hreads⟩ := happended.beside.durableBytes hsame
      rw [happended.beside.receiving hsame] at hreceiving'
      obtain ⟨hreadable, hbytes'⟩ := h.receiving executionId' hash' hreceiving'
      refine ⟨hreads hreadable, ?_⟩
      rw [hbytes, hbytes', recordAppends_of_nil]
      rintro rfl
      have hne : hash ≠ hash' := fun heq => hsame (by rw [heq])
      simp [stagedTail, hne]

theorem Kept.commit (h : Kept κ s appended) (hcommitted : CommittedBlob s s' executionId hash)
    (hdigest : κ.blake3 (s.durableBytes executionId hash) = hash.bytes) :
    Kept κ s' (recordAppends appended executionId [.commit hash]) ∧ s.Stays s' := by
  obtain ⟨row, hrow, hopen, hcomplete, hrow', hblob⟩ := hcommitted.row
  have hreceiving := receiving_of_open hrow hopen
  have hdone : ¬ s'.Receiving executionId hash := by
    intro hreceiving'
    cases hreceiving' _ hrow'
  -- an owned blob of the store after the commit is an old one or the object
  have hcases : ∀ blob brow, s'.tables.blobs.get? blob = some brow → brow.linked = false →
      s.tables.blobs.get? blob = some brow ∨
        blob = hash ∧ brow = ⟨row.length, .received executionId hash, false⟩ := by
    intro blob brow hbrow hlinked
    by_cases hsame : blob = hash
    · subst hsame
      rcases hblob with ⟨old, hold, -, hnew⟩ | ⟨-, hnew⟩
      · rw [hnew] at hbrow
        exact .inl (hold.trans hbrow)
      · rw [hnew] at hbrow
        exact .inr ⟨rfl, (Option.some.inj hbrow).symm⟩
    · rw [hcommitted.beside.blobs blob hsame] at hbrow
      exact .inl hbrow
  refine ⟨⟨fun blob brow hbrow hlinked => ?_, fun blob brow hbrow hlinked => ?_,
    fun executionId' hash' hreceiving' => ?_⟩, fun blob brow hbrow hlinked => ⟨?_, ?_⟩⟩
  · rcases hcases blob brow hbrow hlinked with hold | ⟨rfl, rfl⟩
    · refine (h.owned blob brow hold hlinked).imp id ?_
      rintro ⟨executionId', hpath, hdone'⟩
      refine ⟨executionId', hpath, ?_⟩
      by_cases hsame : (executionId', blob) = (executionId, hash)
      · obtain ⟨rfl, rfl⟩ := Prod.mk.inj hsame
        exact hdone
      · rwa [hcommitted.beside.receiving hsame]
    · exact .inr ⟨executionId, rfl, hdone⟩
  · rw [hcommitted.files]
    rcases hcases blob brow hbrow hlinked with hold | ⟨rfl, rfl⟩
    · exact h.bytes blob brow hold hlinked
    · obtain ⟨content, hcontent, hle⟩ := (h.receiving executionId blob hreceiving).1 row hrow
      rw [durableBytes_of_some hrow hcontent] at hdigest
      rw [hcomplete] at hle hdigest
      exact ⟨content, hcontent, hle, hdigest⟩
  · by_cases hsame : (executionId', hash') = (executionId, hash)
    · obtain ⟨rfl, rfl⟩ := Prod.mk.inj hsame
      exact absurd hreceiving' hdone
    · obtain ⟨hbytes, hreads⟩ := hcommitted.beside.durableBytes hsame
      rw [hcommitted.beside.receiving hsame] at hreceiving'
      obtain ⟨hreadable, hbytes'⟩ := h.receiving executionId' hash' hreceiving'
      exact ⟨hreads hreadable, by rw [hbytes, hbytes', recordAppends_of_nil fun _ => rfl]⟩
  · by_cases hsame : blob = hash
    · subst hsame
      rcases hblob with ⟨old, hold, -, hnew⟩ | ⟨hlinks, -⟩
      · rw [hnew, ← hold, hbrow]
      · cases hlinked.symm.trans (hlinks brow hbrow)
    · rw [hcommitted.beside.blobs blob hsame, hbrow]
  · rw [hcommitted.files]

theorem Kept.not_lost (h : Kept κ s appended) : ¬ s.Lost executionId hash := by
  rintro ⟨row, hrow, hopen, hfile⟩
  have hreceiving := receiving_of_open hrow hopen
  obtain ⟨content, hcontent, -⟩ := (h.receiving executionId hash hreceiving).1 row hrow
  cases hfile.symm.trans hcontent

private theorem receiving_of_received
    (h : (received s executionId changes hash).committed = false) :
    s.Receiving executionId hash := by
  induction changes using List.reverseRecOn with
  | nil =>
    intro row hrow
    simpa [Receive.ofPartial, blobPartial_eq hrow] using h
  | append_singleton changes change ih =>
    refine ih ?_
    rw [received_append] at h
    cases change with
    | append h' length offset bytes =>
      by_cases hsame : h' = hash <;> simpa [Receive.overlay, hsame] using h
    | commit h' =>
      by_cases hsame : h' = hash <;> simp_all [Receive.overlay]

/-- The transaction of a dispatch succeeds, and the files it leaves are what the rows say. -/
theorem Kept.applies (h : Kept κ s appended)
    (hstaged : StagedBy κ s executionId changes) :
    ∃ s', s.applyBlobChanges executionId changes = .ok s' ∧ Lockstep s s' executionId changes ∧
      Kept κ s' (recordAppends appended executionId changes) ∧ s.Stays s' := by
  induction hstaged with
  | nil =>
    have hsame : recordAppends appended executionId [] = appended := by
      funext executionId' hash'
      exact recordAppends_of_nil fun _ => rfl
    exact ⟨s, rfl, .refl s executionId, by rwa [hsame], .refl s⟩
  | append hstaged hlength hopen hknown hfits ih =>
    obtain ⟨s₁, hs₁, hstep, hkept, hstays⟩ := ih
    rcases hstep.applies_append hlength hopen hknown hfits with ⟨s₂, hs₂, hstep₂⟩ | ⟨-, hlost⟩
    · obtain ⟨hkept₂, hstays₂⟩ := hkept.append (appendBlob_eq_ok hs₂)
      rw [recordAppends_append] at hkept₂
      exact ⟨s₂, by rw [applyBlobChanges_concat, hs₁, ok_bind, hs₂], hstep₂, hkept₂,
        hstays.trans hstays₂⟩
    · exact absurd hlost h.not_lost
  | @commit changes hstaged hash hopen hcomplete hdigest ih =>
    obtain ⟨s₁, hs₁, hstep, hkept, hstays⟩ := ih
    obtain ⟨s₂, hs₂, hstep₂⟩ := hstep.applies_commit hopen hcomplete
    have hreadable := (h.receiving executionId hash (receiving_of_received hopen)).1
    rw [← (hstep.content hash hreadable).2] at hdigest
    obtain ⟨hkept₂, hstays₂⟩ := hkept.commit (commitBlob_eq_ok hs₂) hdigest
    rw [recordAppends_append] at hkept₂
    exact ⟨s₂, by rw [applyBlobChanges_concat, hs₁, ok_bind, hs₂], hstep₂, hkept₂,
      hstays.trans hstays₂⟩

end

/-! ## Rolled-back transactions -/

/-- How far the changes of one execution have moved a store, finished or not. -/
structure Grown (s s₁ : BlobStore) (executionId : ExecId) : Prop where
  others : ∀ executionId' hash, executionId' ≠ executionId →
    s₁.partialRow executionId' hash = s.partialRow executionId' hash
  files : ∀ path, (∀ hash, path ≠ .received executionId hash) → s₁.files path = s.files path
  rows : ∀ hash row, s.partialRow executionId hash = some row →
    ∃ row₁, s₁.partialRow executionId hash = some row₁ ∧ row.written ≤ row₁.written ∧
      (row.committed = true → row₁ = row)
  /-- A committed object keeps its file, one being received the bytes its row counts. -/
  content : ∀ hash row, s.partialRow executionId hash = some row →
    (row.committed = true →
      s₁.files (.received executionId hash) = s.files (.received executionId hash)) ∧
    ∀ old, s.files (.received executionId hash) = some old → (row.written : ℕ) ≤ old.length →
      ∃ new, s₁.files (.received executionId hash) = some new ∧ (row.written : ℕ) ≤ new.length ∧
        new.take row.written = old.take row.written

theorem Grown.refl (s : BlobStore) (executionId : ExecId) : s.Grown s executionId where
  others _ _ _ := rfl
  files _ _ := rfl
  rows _ row hrow := ⟨row, hrow, le_rfl, fun _ => rfl⟩
  content _ _ _ := ⟨fun _ => rfl, fun old hold hle => ⟨old, hold, hle, rfl⟩⟩

section

variable {s s₁ s₂ : BlobStore} {executionId : ExecId} {hash : BlobHash} {length offset : ℕ}
  {bytes : Bytes} {appended : ExecId → BlobHash → Bytes}

theorem take_writeAt {old : Bytes} {n : ℕ} (hoffset : n ≤ offset) (hle : n ≤ old.length) :
    (writeAt old offset bytes).take n = old.take n ∧ n ≤ (writeAt old offset bytes).length := by
  have hlength : n ≤ ((old ++ List.replicate (offset - old.length) 0).take offset).length := by
    simp only [List.length_take, List.length_append, List.length_replicate]
    omega
  refine ⟨?_, ?_⟩
  · rw [writeAt, List.append_assoc, List.take_append_of_le_length hlength, List.take_take,
      min_eq_left hoffset, List.take_append_of_le_length hle]
  · rw [writeAt, List.append_assoc, List.length_append]
    omega

theorem Grown.beside (h : s.Grown s₁ executionId) (hbeside : s₁.SameBeside s₂ executionId hash)
    (hrow : ∀ row, s₁.partialRow executionId hash = some row →
      (∃ row₂, s₂.partialRow executionId hash = some row₂ ∧ row.written ≤ row₂.written ∧
        (row.committed = true → row₂ = row)) ∧
      (row.committed = true →
        s₂.files (.received executionId hash) = s₁.files (.received executionId hash)) ∧
      ∀ n old, n ≤ (row.written : ℕ) → s₁.files (.received executionId hash) = some old →
        n ≤ old.length → ∃ new, s₂.files (.received executionId hash) = some new ∧
          n ≤ new.length ∧ new.take n = old.take n) : s.Grown s₂ executionId := by
  have hne : ∀ {hash'}, hash' ≠ hash → (executionId, hash') ≠ (executionId, hash) :=
    fun hne heq => hne (Prod.mk.inj heq).2
  refine ⟨fun executionId' hash' hother => ?_, fun path hpath => ?_, fun hash' row hrow' => ?_,
    fun hash' row hrow' => ?_⟩
  · rw [hbeside.rows _ _ fun heq => hother (Prod.mk.inj heq).1, h.others _ _ hother]
  · rw [hbeside.files _ (hpath hash), h.files path hpath]
  · obtain ⟨row₁, hrow₁, hle, hsame⟩ := h.rows hash' row hrow'
    by_cases hhash : hash' = hash
    · subst hhash
      obtain ⟨⟨row₂, hrow₂, hle₂, hsame₂⟩, -⟩ := hrow row₁ hrow₁
      refine ⟨row₂, hrow₂, hle.trans hle₂, fun hcommitted => ?_⟩
      rw [hsame₂ (by rwa [hsame hcommitted]), hsame hcommitted]
    · exact ⟨row₁, by rwa [hbeside.rows _ _ (hne hhash)], hle, hsame⟩
  · obtain ⟨row₁, hrow₁, hle, hsame⟩ := h.rows hash' row hrow'
    obtain ⟨hcommitted, hcontent⟩ := h.content hash' row hrow'
    by_cases hhash : hash' = hash
    · subst hhash
      obtain ⟨-, hcommitted₂, hcontent₂⟩ := hrow row₁ hrow₁
      refine ⟨fun hdone => ?_, fun old hold hlong => ?_⟩
      · rw [hcommitted₂ (by rwa [hsame hdone]), hcommitted hdone]
      · obtain ⟨mid, hmid, hlong₁, htake⟩ := hcontent old hold hlong
        obtain ⟨new, hnew, hlong₂, htake₂⟩ := hcontent₂ row.written mid hle hmid hlong₁
        exact ⟨new, hnew, hlong₂, htake₂.trans htake⟩
    · rw [hbeside.files _ (by simpa using hhash)]
      exact ⟨hcommitted, hcontent⟩

theorem Grown.change (h : s.Grown s₁ executionId) {change : BlobChange}
    (hchange : s₁.applyBlobChange executionId change = .ok s₂) : s.Grown s₂ executionId := by
  cases change with
  | append hash length offset bytes =>
    have happended := appendBlob_eq_ok hchange
    refine h.beside happended.beside fun row hrow => ?_
    obtain ⟨row₂, hrow₂, -, hwritten, -⟩ := happended.row
    obtain ⟨old, hfile, ⟨hnone, -⟩ | ⟨⟨row', hrow', hopen, -, hoffset⟩, hold⟩⟩ := happended.content
    · cases hnone.symm.trans hrow
    obtain rfl := Option.some.inj (hrow'.symm.trans hrow)
    refine ⟨⟨row₂, hrow₂, Fin.le_def.2 (by omega), fun hdone => ?_⟩, fun hdone => ?_, ?_⟩
    · cases hopen.symm.trans hdone
    · cases hopen.symm.trans hdone
    · intro n content hle hcontent hlong
      obtain rfl := Option.some.inj (hold.symm.trans hcontent)
      obtain ⟨htake, hlong'⟩ := take_writeAt (hle.trans_eq hoffset) hlong
      exact ⟨_, hfile, hlong', htake⟩
  | commit hash =>
    have hcommitted := commitBlob_eq_ok hchange
    obtain ⟨row', hrow', hopen, -, hrow₂, -⟩ := hcommitted.row
    refine h.beside hcommitted.beside fun row hrow => ?_
    obtain rfl := Option.some.inj (hrow'.symm.trans hrow)
    refine ⟨⟨_, hrow₂, le_rfl, fun hdone => ?_⟩, fun _ => by rw [hcommitted.files], ?_⟩
    · cases hopen.symm.trans hdone
    · intro n old _ hold hlong
      rw [hcommitted.files]
      exact ⟨old, hold, hlong, rfl⟩

theorem sameBeside_putFile {content : Option Bytes} :
    s.SameBeside (s.putFile (.received executionId hash) content) executionId hash where
  rows _ _ _ := rfl
  files _ hne := files_putFile_of_ne hne
  blobs _ _ := rfl

theorem Grown.torn (h : s.Grown s₁ executionId) (left : Option Bytes) (change : BlobChange) :
    s.Grown (s₁.torn executionId left change) executionId := by
  cases change with
  | commit hash => exact h
  | append hash length offset bytes =>
    simp only [BlobStore.torn]
    split
    · rename_i hnone
      split
      · refine h.beside sameBeside_putFile fun row hrow => ?_
        cases hnone.symm.trans hrow
      · exact h
    · rename_i row hrow
      split
      · rename_i hcontinues
        obtain ⟨hopen, -, hoffset⟩ := hcontinues
        refine h.beside sameBeside_putFile fun row' hrow' => ?_
        obtain rfl := Option.some.inj (hrow.symm.trans hrow')
        refine ⟨⟨row, hrow, le_rfl, fun _ => rfl⟩, fun hdone => ?_, ?_⟩
        · cases hopen.symm.trans hdone
        · intro n old hle hold hlong
          refine ⟨old.take offset ++ left.getD [], by simp [hold], ?_, ?_⟩
          · simp only [List.length_append, List.length_take]
            omega
          · rw [List.take_append_of_le_length (by simp; omega), List.take_take,
              min_eq_left (by omega)]
      · exact h

theorem Grown.interrupted (h : s.Grown s₁ executionId) (left : Option Bytes)
    (changes : List BlobChange) (applied : ℕ) :
    s.Grown (interrupted executionId left s₁ changes applied) executionId := by
  induction changes generalizing s₁ applied with
  | nil => exact h
  | cons change changes ih =>
    cases applied with
    | zero => exact h.torn left change
    | succ applied =>
      simp only [BlobStore.interrupted]
      split
      · rename_i s₂ hs₂
        exact ih (h.change hs₂) applied
      · exact h

theorem Grown.applied (h : s.Grown s₁ executionId)
    (hs₂ : s₁.applyBlobChanges executionId changes = .ok s₂) : s.Grown s₂ executionId := by
  induction changes generalizing s₁ with
  | nil =>
    cases hs₂
    exact h
  | cons change changes ih =>
    simp only [applyBlobChanges, bind_eq_ok] at hs₂
    obtain ⟨mid, hmid, hrest⟩ := hs₂
    exact ih (h.change hmid) hrest

end

/-! ## Steps that touch no object -/

/-- A step that leaves the rows of the objects and the bytes they count, and adds no owned blob
but a copy. -/
structure Quiet (κ : Primitives) (s s' : BlobStore) : Prop where
  rows : ∀ executionId hash, s'.partialRow executionId hash = s.partialRow executionId hash
  stays : s.Stays s'
  owned : ∀ hash row, s'.tables.blobs.get? hash = some row → row.linked = false →
    s.tables.blobs.get? hash = some row ∨ row.path = .owned hash ∧
      ∃ content, s'.files (.owned hash) = some content ∧ (row.length : ℕ) ≤ content.length ∧
        κ.blake3 (content.take row.length) = hash.bytes
  content : ∀ executionId hash row old, s.partialRow executionId hash = some row →
    row.committed = false → s.files (.received executionId hash) = some old →
    (row.written : ℕ) ≤ old.length →
      ∃ new, s'.files (.received executionId hash) = some new ∧ (row.written : ℕ) ≤ new.length ∧
        new.take row.written = old.take row.written

section

variable {s s' : BlobStore} {executionId : ExecId} {hash : BlobHash}
  {appended : ExecId → BlobHash → Bytes}

private theorem Quiet.receiving (h : Quiet κ s s') :
    s'.Receiving executionId hash ↔ s.Receiving executionId hash := by
  rw [Receiving, Receiving, h.rows]

theorem Quiet.durableBytes (h : Quiet κ s s') (hkept : Kept κ s appended)
    (hreceiving : s.Receiving executionId hash) : s'.Readable executionId hash ∧
      s'.durableBytes executionId hash = s.durableBytes executionId hash := by
  cases hrow : s.partialRow executionId hash with
  | none =>
    have hrow' := (h.rows executionId hash).trans hrow
    refine ⟨fun row hsome => ?_, by rw [durableBytes_of_none hrow, durableBytes_of_none hrow']⟩
    cases hrow'.symm.trans hsome
  | some row =>
    have hrow' := (h.rows executionId hash).trans hrow
    obtain ⟨old, hold, hlong⟩ := (hkept.receiving executionId hash hreceiving).1 row hrow
    obtain ⟨new, hnew, hlong', htake⟩ :=
      h.content executionId hash row old hrow (hreceiving row hrow) hold hlong
    refine ⟨fun row' hsome => ?_, ?_⟩
    · obtain rfl := Option.some.inj (hrow'.symm.trans hsome)
      exact ⟨new, hnew, hlong'⟩
    · rw [durableBytes_of_some hrow hold, durableBytes_of_some hrow' hnew, htake]

theorem Quiet.kept (h : Quiet κ s s') (hkept : Kept κ s appended) : Kept κ s' appended := by
  refine ⟨fun blob row hrow hlinked => ?_, fun blob row hrow hlinked => ?_,
    fun executionId hash hreceiving => ?_⟩
  · rcases h.owned blob row hrow hlinked with hold | ⟨hpath, -⟩
    · refine (hkept.owned blob row hold hlinked).imp id ?_
      rintro ⟨executionId, hpath, hdone⟩
      exact ⟨executionId, hpath, by rwa [h.receiving]⟩
    · exact .inl hpath
  · rcases h.owned blob row hrow hlinked with hold | ⟨hpath, hcontent⟩
    · rw [(h.stays blob row hold hlinked).2]
      exact hkept.bytes blob row hold hlinked
    · rw [hpath]
      exact hcontent
  · rw [h.receiving] at hreceiving
    obtain ⟨hreadable, hbytes⟩ := h.durableBytes hkept hreceiving
    exact ⟨hreadable, hbytes.trans (hkept.receiving executionId hash hreceiving).2⟩

private theorem Grown.quiet {failed : BlobStore} (h : s.Grown failed executionId)
    (hkept : Kept κ s appended) : Quiet κ s (s.rollBack failed) where
  rows _ _ := rfl
  stays blob row hrow hlinked := by
    refine ⟨hrow, ?_⟩
    rcases hkept.owned blob row hrow hlinked with hpath | ⟨executionId', hpath, hdone⟩
    · exact h.files _ (by simp [hpath])
    · by_cases hsame : executionId' = executionId
      · subst hsame
        obtain ⟨prow, hprow, hcommitted⟩ : ∃ prow,
            s.partialRow executionId' blob = some prow ∧ prow.committed = true := by
          simpa [Receiving] using hdone
        rw [hpath]
        exact (h.content blob prow hprow).1 hcommitted
      · refine h.files _ fun hash heq => hsame ?_
        exact (BlobPath.received.inj (hpath.symm.trans heq)).1
  owned _ _ hrow _ := .inl hrow
  content executionId' hash row old hrow _ hold hlong := by
    by_cases hsame : executionId' = executionId
    · subst hsame
      exact (h.content hash row hrow).2 old hold hlong
    · refine ⟨old, ?_, hlong, rfl⟩
      rw [← hold]
      exact h.files _ fun hash' heq => hsame (BlobPath.received.inj heq).1

theorem Quiet.trans {s'' : BlobStore} (h : Quiet κ s s') (h' : Quiet κ s' s'') : Quiet κ s s'' where
  rows executionId hash := (h'.rows executionId hash).trans (h.rows executionId hash)
  stays := h.stays.trans h'.stays
  owned hash row hrow hlinked := by
    rcases h'.owned hash row hrow hlinked with hmid | hnew
    · refine (h.owned hash row hmid hlinked).imp id ?_
      rintro ⟨hpath, hcontent⟩
      have hfile := (h'.stays hash row hmid hlinked).2
      rw [hpath] at hfile
      rw [hfile]
      exact ⟨hpath, hcontent⟩
    · exact .inr hnew
  content executionId hash row old hrow hopen hold hlong := by
    obtain ⟨mid, hmid, hlong', htake⟩ := h.content executionId hash row old hrow hopen hold hlong
    obtain ⟨new, hnew, hlong'', htake'⟩ := h'.content executionId hash row mid
      ((h.rows executionId hash).trans hrow) hopen hmid hlong'
    exact ⟨new, hnew, hlong'', htake'.trans htake⟩

/-- An owned blob or an object being received has the file. -/
def Referred (s : BlobStore) (path : BlobPath) : Prop :=
  (∃ hash row, s.tables.blobs.get? hash = some row ∧ row.linked = false ∧ row.path = path) ∨
    ∃ executionId hash row, s.partialRow executionId hash = some row ∧ row.committed = false ∧
      path = .received executionId hash

theorem Kept.referred (h : Kept κ s appended) (hpath : s.Referred path) :
    (∃ hash row, s.tables.blobs.get? hash = some row ∧ path = .owned hash) ∨
      ∃ executionId hash, path = .received executionId hash := by
  rcases hpath with ⟨hash, row, hrow, hlinked, rfl⟩ | ⟨executionId, hash, -, -, -, rfl⟩
  · refine (h.owned hash row hrow hlinked).imp (fun hpath => ⟨hash, row, hrow, hpath⟩) ?_
    rintro ⟨executionId, hpath, -⟩
    exact ⟨executionId, hash, hpath⟩
  · exact .inr ⟨executionId, hash, rfl⟩

private theorem quiet_of_files {files : BlobPath → Option Bytes}
    (h : ∀ path, s.Referred path → files path = s.files path) :
    Quiet κ s { s with files := files } where
  rows _ _ := rfl
  stays hash row hrow hlinked := ⟨hrow, h _ (.inl ⟨hash, row, hrow, hlinked, rfl⟩)⟩
  owned _ _ hrow _ := .inl hrow
  content executionId hash row old hrow hopen hold hlong :=
    ⟨old, (h _ (.inr ⟨executionId, hash, row, hrow, hopen, rfl⟩)).trans hold, hlong, rfl⟩

private theorem quiet_putFile {content : Option Bytes} (h : ¬ s.Referred path) :
    Quiet κ s (s.putFile path content) :=
  quiet_of_files fun path' hreferred => by
    refine Function.update_of_ne ?_ ..
    rintro rfl
    exact h hreferred

theorem Kept.copy_not_referred (h : Kept κ s appended) (token : UInt64) :
    ¬ s.Referred (.copy token) := by
  intro hreferred
  rcases h.referred hreferred with ⟨_, _, -, hpath⟩ | ⟨_, _, hpath⟩ <;> cases hpath

theorem Kept.other_not_referred (h : Kept κ s appended) (path : String) :
    ¬ s.Referred (.other path) := by
  intro hreferred
  rcases h.referred hreferred with ⟨_, _, -, hpath⟩ | ⟨_, _, hpath⟩ <;> cases hpath

theorem Kept.owned_not_referred (h : Kept κ s appended)
    (hnone : s.tables.blobs.get? hash = none) : ¬ s.Referred (.owned hash) := by
  intro hreferred
  rcases h.referred hreferred with ⟨hash', row, hrow, hpath⟩ | ⟨_, _, hpath⟩
  · obtain rfl := BlobPath.owned.inj hpath
    cases hnone.symm.trans hrow
  · cases hpath

private theorem quiet_upsertBlob (hash : BlobHash) (hlinked : row.linked = true) :
    Quiet κ s { s with tables := { s.tables with
      blobs := upsertBlob s.tables.blobs hash row } } where
  rows _ _ := rfl
  stays hash' row' hrow' hlinked' := by
    refine ⟨?_, rfl⟩
    by_cases hsame : hash' = hash
    · subst hsame
      rcases upsertBlob_self s.tables.blobs hash' row with ⟨old, hold, -, hnew⟩ | ⟨hlinks, -⟩
      · exact hnew.trans (hold.symm.trans hrow')
      · cases hlinked'.symm.trans (hlinks row' hrow')
    · exact (get?_upsertBlob_of_ne hsame).trans hrow'
  owned hash' row' hrow' hlinked' := by
    refine .inl ?_
    by_cases hsame : hash' = hash
    · subst hsame
      rcases upsertBlob_self s.tables.blobs hash' row with ⟨old, hold, -, hnew⟩ | ⟨-, hnew⟩
      · exact hold.trans (hnew.symm.trans hrow')
      · obtain rfl := Option.some.inj (hnew.symm.trans hrow')
        cases hlinked.symm.trans hlinked'
    · exact (get?_upsertBlob_of_ne hsame).symm.trans hrow'
  content _ _ _ old _ _ hold hlong := ⟨old, hold, hlong, rfl⟩

private theorem quiet_insertOwned {content : Bytes} {length : SqliteU64}
    (hnone : s.tables.blobs.get? hash = none) (hfile : s.files (.owned hash) = some content)
    (hlength : (length : ℕ) = content.length) (hdigest : κ.blake3 content = hash.bytes) :
    Quiet κ s { s with tables := { s.tables with
      blobs := s.tables.blobs.insert hash ⟨length, .owned hash, false⟩ } } where
  rows _ _ := rfl
  stays hash' row' hrow' _ := by
    refine ⟨(OrdMap.get?_insert_of_ne _ _ ?_).trans hrow', rfl⟩
    rintro rfl
    cases hnone.symm.trans hrow'
  owned hash' row' hrow' _ := by
    rcases OrdMap.get?_insert_cases hrow' with ⟨rfl, rfl⟩ | ⟨-, hold⟩
    · refine .inr ⟨rfl, content, hfile, hlength.le, ?_⟩
      rw [hlength, List.take_length, hdigest]
    · exact .inl hold
  content _ _ _ old _ _ hold hlong := ⟨old, hold, hlong, rfl⟩

theorem not_sweeps_of_row (hrow : s.tables.blobs.get? hash = some row)
    (hcopy : ∀ token, row.path ≠ .copy token) : sweeps s.tables row.path = false := by
  have hmem : row.path ∈ retained s.tables := by
    refine List.mem_append_left _ (List.mem_map.2 ⟨(hash, row), ?_, rfl⟩)
    exact (s.tables.blobs.mem_entries_iff hash row).2 hrow
  cases hpath : row.path with
  | copy token => exact absurd hpath (hcopy token)
  | other path => rfl
  | received executionId hash => simpa [sweeps, hpath] using hmem
  | owned hash => simpa [sweeps, hpath] using hmem

theorem not_sweeps_of_receiving {row : PartialRow}
    (hrow : s.partialRow executionId hash = some row) (hopen : row.committed = false) :
    sweeps s.tables (.received executionId hash) = false := by
  have hmem : BlobPath.received executionId hash ∈ retained s.tables := by
    refine List.mem_append_right _ (List.mem_map.2 ⟨(toLex (executionId, hash), row), ?_, rfl⟩)
    refine List.mem_filter.2 ⟨(s.tables.blobPartials.mem_entries_iff _ row).2 hrow, ?_⟩
    simp [hopen]
  simpa [sweeps] using hmem

theorem Kept.not_sweeps (h : Kept κ s appended) (hreferred : s.Referred path) :
    sweeps s.tables path = false := by
  rcases hreferred with ⟨hash, row, hrow, hlinked, rfl⟩ | ⟨executionId, hash, row, hrow, hopen, rfl⟩
  · refine not_sweeps_of_row hrow fun token hpath => ?_
    refine h.copy_not_referred token (.inl ⟨hash, row, hrow, hlinked, hpath⟩)
  · exact not_sweeps_of_receiving hrow hopen

end

end BlobStore

open BlobStore in
theorem Sandbox.StagedBy.congr {s s' : BlobStore} {executionId : ExecId}
    (h : StagedBy κ s executionId changes)
    (hrows : ∀ hash, s'.partialRow executionId hash = s.partialRow executionId hash)
    (hbytes : ∀ hash, s.Receiving executionId hash →
      s'.durableBytes executionId hash = s.durableBytes executionId hash) :
    StagedBy κ s' executionId changes := by
  have hreceived : ∀ changes hash,
      received s' executionId changes hash = received s executionId changes hash := by
    intro changes hash
    rw [received, received, blobPartial, blobPartial, hrows]
  induction h with
  | nil => exact .nil
  | append h hlength hopen hknown hfits ih =>
    rw [← hreceived] at hopen hknown hfits ⊢
    exact ih.append hlength hopen hknown hfits
  | commit h hopen hcomplete hdigest ih =>
    rw [← hbytes _ (receiving_of_received hopen)] at hdigest
    rw [← hreceived] at hopen hcomplete
    exact ih.commit hopen hcomplete hdigest

/-! ## Runs of a Host -/

namespace BlobHost

structure Sound (κ : Primitives) (h : BlobHost) : Prop where
  kept : h.store.Kept κ h.appended
  staged : ∀ executionId changes, h.staged executionId = some changes →
    StagedBy κ h.store executionId changes
  copies : ∀ token content, h.copies token = some content →
    h.store.files (.copy token) = some content ∧ content.length ≤ maxBlobBytes

theorem sound_initial : Sound κ initial where
  kept := ⟨fun _ _ hrow => (nomatch hrow), fun _ _ hrow => (nomatch hrow),
    fun _ _ _ => ⟨fun _ hrow => (nomatch hrow), rfl⟩⟩
  staged _ _ h := nomatch h
  copies _ _ h := nomatch h

variable {h h' : BlobHost}

private theorem Sound.quiet (hs : Sound κ h) (hquiet : h.store.Quiet κ h'.store)
    (happended : h'.appended = h.appended)
    (hstaged : ∀ executionId changes, h'.staged executionId = some changes →
      h.staged executionId = some changes)
    (hcopies : ∀ token content, h'.copies token = some content →
      h'.store.files (.copy token) = some content ∧ content.length ≤ maxBlobBytes) :
    Sound κ h' ∧ h.store.Stays h'.store := by
  refine ⟨⟨?_, fun executionId changes hsome => ?_, hcopies⟩, hquiet.stays⟩
  · rw [happended]
    exact hquiet.kept hs.kept
  · refine (hs.staged executionId changes (hstaged executionId changes hsome)).congr
      (hquiet.rows executionId) fun hash hreceiving => ?_
    exact (hquiet.durableBytes hs.kept hreceiving).2

theorem Sound.stages (hs : Sound κ h) {executionId : ExecId} {changes : Option (List BlobChange)}
    (hchanges : ∀ c, changes = some c → StagedBy κ h.store executionId c) :
    Sound κ { h with staged := Function.update h.staged executionId changes } := by
  refine ⟨hs.kept, fun executionId' changes' hsome => ?_, hs.copies⟩
  by_cases hsame : executionId' = executionId
  · subst hsame
    exact hchanges changes' (by simpa using hsome)
  · exact hs.staged executionId' changes' (by simpa [Function.update_of_ne hsame] using hsome)

theorem staged_of_update {executionId executionId' : ExecId}
    (hsome : Function.update h.staged executionId none executionId' = some changes) :
    executionId' ≠ executionId ∧ h.staged executionId' = some changes := by
  by_cases hsame : executionId' = executionId
  · subst hsame
    simp at hsome
  · exact ⟨hsame, by simpa [Function.update_of_ne hsame] using hsome⟩

theorem Sound.persist (hs : Sound κ h) (executionId : ExecId) (outcome : PersistOutcome) :
    Sound κ (h.persist executionId outcome) ∧
      h.store.Stays (h.persist executionId outcome).store := by
  have hfail : ∀ changes applied left, Sound κ (h.failPersist executionId changes applied left) ∧
      h.store.Stays (h.failPersist executionId changes applied left).store := by
    intro changes applied left
    have hgrown := (BlobStore.Grown.refl h.store executionId).interrupted left changes applied
    refine hs.quiet (hgrown.quiet hs.kept) rfl (fun _ _ hsome => (staged_of_update hsome).2) ?_
    intro token content hcopy
    obtain ⟨hfile, hle⟩ := hs.copies token content hcopy
    exact ⟨(hgrown.files (.copy token) fun _ => by simp).trans hfile, hle⟩
  cases hstaged : h.staged executionId with
  | none =>
    simp only [BlobHost.persist, hstaged]
    exact ⟨hs, .refl _⟩
  | some changes =>
    cases outcome with
    | failed applied left =>
      simp only [BlobHost.persist, hstaged]
      exact hfail changes applied left
    | committed =>
      obtain ⟨s', hs', -, hkept, hstays⟩ := hs.kept.applies (hs.staged executionId changes hstaged)
      have hgrown := (BlobStore.Grown.refl h.store executionId).applied hs'
      simp only [BlobHost.persist, hstaged, hs']
      refine ⟨⟨hkept, fun executionId' changes' hsome => ?_, fun token content hcopy => ?_⟩, hstays⟩
      · -- the objects of another execution are where they were
        obtain ⟨hother, hsome⟩ := staged_of_update hsome
        refine (hs.staged executionId' changes' hsome).congr
          (fun hash => hgrown.others executionId' hash hother) fun hash _ => ?_
        have hfile := hgrown.files (.received executionId' hash) fun hash' heq =>
          hother (BlobPath.received.inj heq).1
        rw [BlobStore.durableBytes, BlobStore.durableBytes,
          hgrown.others executionId' hash hother, hfile]
      · obtain ⟨hfile, hle⟩ := hs.copies token content hcopy
        exact ⟨(hgrown.files (.copy token) fun _ => by simp).trans hfile, hle⟩

private theorem Sound.copies_step (hs : Sound κ h) {token token' : UInt64} {left : Option Bytes}
    {content : Bytes} (hleft : ∀ c, left = some c → c.length ≤ maxBlobBytes)
    (hsome : Function.update h.copies token left token' = some content) :
    (h.store.putFile (.copy token) left).files (.copy token') = some content ∧
      content.length ≤ maxBlobBytes := by
  by_cases hsame : token' = token
  · subst hsame
    rw [Function.update_self] at hsome
    rw [BlobStore.files_putFile_self]
    exact ⟨hsome, hleft content hsome⟩
  · rw [Function.update_of_ne hsame] at hsome
    rw [BlobStore.files_putFile_of_ne (by simpa using hsame)]
    exact hs.copies token' content hsome

theorem Sound.copy (hs : Sound κ h) (token : UInt64) {left : Option Bytes}
    (hleft : ∀ c, left = some c → c.length ≤ maxBlobBytes) :
    Sound κ { h with copies := Function.update h.copies token left
                     store := h.store.putFile (.copy token) left } ∧
      h.store.Stays (h.store.putFile (.copy token) left) :=
  hs.quiet (BlobStore.quiet_putFile (hs.kept.copy_not_referred token)) rfl (fun _ _ hsome => hsome)
    fun _ _ hsome => hs.copies_step hleft hsome

theorem Sound.copyFinish (hs : Sound κ h) (token : UInt64) (inserted : Bool) :
    Sound κ (h.copyFinish κ token inserted) ∧
      h.store.Stays (h.copyFinish κ token inserted).store := by
  unfold BlobHost.copyFinish
  split
  · exact ⟨hs, .refl _⟩
  rename_i content hcopy
  have hremoved : h.store.Quiet κ (h.store.putFile (.copy token) none) :=
    BlobStore.quiet_putFile (hs.kept.copy_not_referred token)
  have hkept := hremoved.kept hs.kept
  -- the files after the rename
  have hcopies : ∀ token' content', Function.update h.copies token none token' = some content' →
      ((h.store.putFile (.copy token) none).putFile (.owned ⟨κ.blake3 content⟩)
        (some content)).files (.copy token') = some content' ∧ content'.length ≤ maxBlobBytes := by
    intro token' content' hsome
    rw [BlobStore.files_putFile_of_ne (by simp)]
    exact hs.copies_step (fun _ hc => (nomatch hc)) hsome
  dsimp only
  split
  · rename_i hnone hlength
    have hrenamed : h.store.Quiet κ ((h.store.putFile (.copy token) none).putFile
        (.owned ⟨κ.blake3 content⟩) (some content)) :=
      hremoved.trans (BlobStore.quiet_putFile (hkept.owned_not_referred hnone))
    have hquiet := hrenamed.trans (BlobStore.quiet_insertOwned hnone
      (BlobStore.files_putFile_self) (BlobStore.sqliteOf_eq_ok.1 hlength) rfl)
    cases inserted with
    | true => exact hs.quiet hquiet rfl (fun _ _ hsome => hsome) hcopies
    | false => exact hs.quiet hrenamed rfl (fun _ _ hsome => hsome) hcopies
  · rename_i hnone hlength
    exact hs.quiet (hremoved.trans (BlobStore.quiet_putFile (hkept.owned_not_referred hnone))) rfl
      (fun _ _ hsome => hsome) hcopies
  · exact hs.quiet hremoved rfl (fun _ _ hsome => hsome)
      fun _ _ hsome => hs.copies_step (fun _ hc => (nomatch hc)) hsome

theorem Sound.reopen (hs : Sound κ h) (fromUtf8Lossy : Bytes → String)
    (torn : UInt64 → Option Bytes) (reached : BlobPath → Bool) :
    Sound κ (h.step κ fromUtf8Lossy (.reopen torn reached)) ∧
      h.store.Stays (h.step κ fromUtf8Lossy (.reopen torn reached)).store := by
  have hcrashed : h.store.Quiet κ { h.store with files := fun
      | .copy token => if (h.copies token).isSome then torn token else h.store.files (.copy token)
      | path => h.store.files path } := by
    refine BlobStore.quiet_of_files fun path hreferred => ?_
    cases path with
    | copy token => exact absurd hreferred (hs.kept.copy_not_referred token)
    | received executionId hash => rfl
    | owned hash => rfl
    | other path => rfl
  have hkept := hcrashed.kept hs.kept
  refine hs.quiet (hcrashed.trans (BlobStore.quiet_of_files fun path hreferred => ?_)) rfl
    (fun _ _ hsome => (nomatch hsome)) fun _ _ hsome => (nomatch hsome)
  rw [if_neg]
  rintro ⟨hswept, -⟩
  cases hswept.symm.trans (hkept.not_sweeps hreferred)

private theorem Sound.step (hs : Sound κ h) (fromUtf8Lossy : Bytes → String) (action : BlobAction) :
    Sound κ (h.step κ fromUtf8Lossy action) ∧
      h.store.Stays (h.step κ fromUtf8Lossy action).store := by
  cases action with
  | dispatch executionId host attachment hashPerByte calls =>
    simp only [BlobHost.step]
    split
    · rename_i scope hrun
      refine ⟨hs.stages fun changes hsome => ?_, .refl _⟩
      cases hsome
      exact (BlobScope.run_stagedBy rfl .nil hrun).2
    · exact ⟨hs.stages fun _ hsome => (nomatch hsome), .refl _⟩
  | discard executionId => exact ⟨hs.stages fun _ hsome => (nomatch hsome), .refl _⟩
  | persist executionId outcome => exact hs.persist executionId outcome
  | copyOpen token =>
    simp only [BlobHost.step]
    split
    · exact hs.copy token fun c hc => by
        cases hc
        exact Nat.zero_le _
    · exact ⟨hs, .refl _⟩
  | copyWrite token bytes =>
    simp only [BlobHost.step, copyWrite]
    split
    · exact ⟨hs, .refl _⟩
    split
    · exact hs.copy token fun _ hc => (nomatch hc)
    · rename_i hle
      refine hs.copy token fun c hc => ?_
      cases hc
      rw [List.length_append]
      omega
  | copyFinish token inserted => exact hs.copyFinish token inserted
  | copyFail token =>
    simp only [BlobHost.step]
    split
    · exact ⟨hs, .refl _⟩
    · exact hs.copy token fun _ hc => (nomatch hc)
  | linkBlob path content =>
    simp only [BlobHost.step, linkBlob]
    split
    · exact ⟨hs, .refl _⟩
    split
    · exact ⟨hs, .refl _⟩
    · exact hs.quiet (BlobStore.quiet_upsertBlob _ rfl) rfl (fun _ _ hsome => hsome) hs.copies
  | external path content =>
    refine hs.quiet (BlobStore.quiet_putFile (hs.kept.other_not_referred path)) rfl
      (fun _ _ hsome => hsome) fun token content' hsome => ?_
    obtain ⟨hfile, hle⟩ := hs.copies token content' hsome
    exact ⟨(BlobStore.files_putFile_of_ne (by simp)).trans hfile, hle⟩
  | reopen torn reached => exact hs.reopen fromUtf8Lossy torn reached

theorem sound_run (fromUtf8Lossy : Bytes → String) (actions : List BlobAction) :
    Sound κ (initial.run κ fromUtf8Lossy actions) := by
  induction actions using List.reverseRecOn with
  | nil => exact sound_initial
  | append_singleton actions action ih =>
    rw [run, List.foldl_append]
    exact (ih.step fromUtf8Lossy action).1

/-- What the rows of a Host say about its files, and what a step can do to them. -/
structure BlobsKept (κ : Primitives) (fromUtf8Lossy : Bytes → String) (h : BlobHost) : Prop where
  committed : ∀ hash row, h.store.tables.blobs.get? hash = some row → row.linked = false →
    ∃ content, h.store.files row.path = some content ∧ (row.length : ℕ) ≤ content.length ∧
      κ.blake3 (content.take row.length) = hash.bytes
  /-- No step rewrites the file of an owned blob or replaces its row. -/
  rewritten : ∀ action hash row, h.store.tables.blobs.get? hash = some row → row.linked = false →
    (h.step κ fromUtf8Lossy action).store.tables.blobs.get? hash = some row ∧
      (h.step κ fromUtf8Lossy action).store.files row.path = h.store.files row.path
  receiving : ∀ executionId hash row, h.store.partialRow executionId hash = some row →
    row.committed = false → ∃ content,
      h.store.files (.received executionId hash) = some content ∧
      (row.written : ℕ) ≤ content.length ∧
      content.take row.written = h.appended executionId hash
  /-- The sweep keeps the files of the rows and of the objects being received, but for the
  temporary files of copies. -/
  swept : ∀ torn reached path,
    ((∃ hash row, h.store.tables.blobs.get? hash = some row ∧ row.path = path) ∨
      ∃ executionId hash row, h.store.partialRow executionId hash = some row ∧
        row.committed = false ∧ path = .received executionId hash) →
    (∀ token, path ≠ .copy token) →
      (h.step κ fromUtf8Lossy (.reopen torn reached)).store.files path = h.store.files path

end BlobHost

open BlobHost in
/-- In every run of executions, copies, links, failed transactions and crashes, received blobs are
what their hashes say. -/
theorem received_blobs_kept (fromUtf8Lossy : Bytes → String) (actions : List BlobAction) :
    BlobsKept κ fromUtf8Lossy (initial.run κ fromUtf8Lossy actions) := by
  have hs : Sound κ (initial.run κ fromUtf8Lossy actions) := sound_run fromUtf8Lossy actions
  generalize initial.run κ fromUtf8Lossy actions = h at hs
  refine ⟨hs.kept.bytes, fun action => (hs.step fromUtf8Lossy action).2,
    fun executionId hash row hrow hopen => ?_, fun torn reached path hpath hcopy => ?_⟩
  · have hreceiving := BlobStore.receiving_of_open hrow hopen
    obtain ⟨hreadable, hbytes⟩ := hs.kept.receiving executionId hash hreceiving
    obtain ⟨content, hcontent, hlong⟩ := hreadable row hrow
    rw [BlobStore.durableBytes_of_some hrow hcontent] at hbytes
    exact ⟨content, hcontent, hlong, hbytes⟩
  · have hkeeps : BlobStore.sweeps h.store.tables path = false := by
      rcases hpath with ⟨hash, row, hrow, rfl⟩ | ⟨executionId, hash, row, hrow, hopen, rfl⟩
      · exact BlobStore.not_sweeps_of_row hrow hcopy
      · exact BlobStore.not_sweeps_of_receiving hrow hopen
    simp only [BlobHost.step, BlobStore.sweepBlobFiles]
    rw [if_neg fun hswept => Bool.false_ne_true (hkeeps.symm.trans hswept.1)]

namespace Sample

/-- A copy of one byte is being written when its temporary file is linked. -/
def linkedCopy : BlobHost :=
  BlobHost.initial.run referencePrimitives (fun _ => "")
    [.copyOpen 0, .copyWrite 0 [7], .linkBlob (.copy 0) [7]]

end Sample

open Sample in
/-- The sweep removes a temporary copy although a row refers to it. -/
theorem sweep_removes_linked_copy : ∃ row,
    linkedCopy.store.tables.blobs.get? oneByteHash = some row ∧
      linkedCopy.store.files row.path = some [7] ∧
      (linkedCopy.step referencePrimitives (fun _ => "")
        (.reopen (fun _ => some [7]) fun _ => true)).store.tables.blobs.get? oneByteHash =
          some row ∧
      (linkedCopy.step referencePrimitives (fun _ => "")
        (.reopen (fun _ => some [7]) fun _ => true)).store.files row.path = none :=
  ⟨⟨1, .copy 0, true⟩, by decide +kernel, by decide +kernel, by decide +kernel, by decide +kernel⟩

end Arena0
