import Arena0.Sandbox

/-!
# Received blobs

A guest receives an object piecewise: it appends the attachments of direct messages
and commits the object once its bytes hash to its name.  The sandbox only stages the
changes of a dispatch and answers the guest from an overlay of the durable rows; the
store applies the staged changes in the transaction of the dispatch.

The counters are natural numbers: what SQLite holds is below `2 ^ 63`, and so is the
length of a vector, so no sum of the source overflows.
-/

namespace Arena0

open Borsh Fallible

variable {κ : Primitives}

def maxBlobBytes : ℕ := 16 * 1024 * 1024

inductive BlobChange where
  | append (hash : BlobHash) (length offset : ℕ) (bytes : Bytes)
  | commit (hash : BlobHash)
  deriving DecidableEq

structure BlobPartial where
  length : ℕ
  written : ℕ
  committed : Bool
  deriving DecidableEq

/-! ## Rows and files -/

/-- A value of an SQLite `INTEGER` column that holds a `u64`. -/
abbrev SqliteU64 := Fin (2 ^ 63)

def sqliteOf (value : ℕ) : Except StoreError SqliteU64 :=
  if h : value < 2 ^ 63 then .ok ⟨value, h⟩
  else .error (.corruption "u64 value cannot be represented in SQLite INTEGER")

/-- A file by the store's name for it: the three kinds of the blob directory, and any other. -/
inductive BlobPath where
  | received (executionId : ExecId) (hash : BlobHash)
  | owned (hash : BlobHash)
  | copy (token : UInt64)
  | other (path : String)
  deriving DecidableEq

/-- A row of `blobs`; a linked file is not owned by the store. -/
structure BlobRow where
  length : SqliteU64
  path : BlobPath
  linked : Bool
  deriving DecidableEq

/-- A row of `blob_partials`. -/
structure PartialRow where
  length : SqliteU64
  written : SqliteU64
  committed : Bool
  deriving DecidableEq

/-- The tables; a transaction that fails leaves them as they were. -/
structure BlobTables where
  blobs : OrdMap BlobHash BlobRow
  blobGrants : List (ExecId × BlobHash)
  blobPartials : OrdMap (ExecId ×ₗ BlobHash) PartialRow

/-- The tables and the files, which no transaction covers. -/
structure BlobStore where
  tables : BlobTables
  files : BlobPath → Option Bytes

namespace BlobStore

def partialRow (s : BlobStore) (executionId : ExecId) (hash : BlobHash) : Option PartialRow :=
  s.tables.blobPartials.get? (toLex (executionId, hash))

def blobPartial (s : BlobStore) (executionId : ExecId) (hash : BlobHash) : Option BlobPartial :=
  (s.partialRow executionId hash).map fun row => ⟨row.length, row.written, row.committed⟩

def putPartial (s : BlobStore) (executionId : ExecId) (hash : BlobHash) (row : PartialRow) :
    BlobStore :=
  { s with tables := { s.tables with
      blobPartials := s.tables.blobPartials.insert (toLex (executionId, hash)) row } }

def putFile (s : BlobStore) (path : BlobPath) (content : Option Bytes) : BlobStore :=
  { s with files := Function.update s.files path content }

/-- `write_all_at`: a gap before the offset is filled with zeros. -/
def writeAt (content : Bytes) (offset : ℕ) (bytes : Bytes) : Bytes :=
  (content ++ List.replicate (offset - content.length) 0).take offset ++ bytes ++
    content.drop (offset + bytes.length)

/-- The first append of an object creates its file, a later one writes at its offset.  The file is
synced before the row is written. -/
def appendBlob (s : BlobStore) (executionId : ExecId) (hash : BlobHash) (length offset : ℕ)
    (bytes : Bytes) : Except StoreError BlobStore := do
  let path := BlobPath.received executionId hash
  match s.partialRow executionId hash with
  | none => do
    ensure (offset = 0) (.corruption "blob append does not continue the partial")
    let s := s.putFile path (some bytes)
    let row : PartialRow := ⟨← sqliteOf length, ← sqliteOf (offset + bytes.length), false⟩
    return s.putPartial executionId hash row
  | some row => do
    ensure (row.committed = false ∧ (row.length : ℕ) = length ∧ (row.written : ℕ) = offset)
      (.corruption "blob append does not continue the partial")
    let content ← okOr (s.files path) (.io "No such file or directory (os error 2)")
    let s := s.putFile path (some (writeAt content offset bytes))
    let written ← sqliteOf (offset + bytes.length)
    return s.putPartial executionId hash { row with written := written }

/-- `ON CONFLICT(hash) DO UPDATE .. WHERE blobs.linked = 1`: an owned blob stays. -/
def upsertBlob (blobs : OrdMap BlobHash BlobRow) (hash : BlobHash) (row : BlobRow) :
    OrdMap BlobHash BlobRow :=
  match blobs.get? hash with
  | some old => if old.linked then blobs.insert hash row else blobs
  | none => blobs.insert hash row

/-- A complete object becomes a blob of the store unless the store already owns one. -/
def commitBlob (s : BlobStore) (executionId : ExecId) (hash : BlobHash) :
    Except StoreError BlobStore := do
  match s.partialRow executionId hash with
  | none => .error (.corruption "committing an incomplete blob partial")
  | some row => do
    ensure (row.committed = false ∧ row.written = row.length)
      (.corruption "committing an incomplete blob partial")
    let blobs := upsertBlob s.tables.blobs hash ⟨row.length, .received executionId hash, false⟩
    let blobGrants := if s.tables.blobGrants.contains (executionId, hash) then s.tables.blobGrants
      else s.tables.blobGrants ++ [(executionId, hash)]
    let s := { s with tables := { s.tables with blobs := blobs, blobGrants := blobGrants } }
    return s.putPartial executionId hash { row with committed := true }

def applyBlobChange (s : BlobStore) (executionId : ExecId) :
    BlobChange → Except StoreError BlobStore
  | .append hash length offset bytes => s.appendBlob executionId hash length offset bytes
  | .commit hash => s.commitBlob executionId hash

/-- Apply the staged changes of a dispatch inside its transaction. -/
def applyBlobChanges (s : BlobStore) (executionId : ExecId) :
    List BlobChange → Except StoreError BlobStore
  | [] => .ok s
  | change :: changes => do
    let s ← s.applyBlobChange executionId change
    s.applyBlobChanges executionId changes

/-- The digest of the durable bytes of an object followed by `tail`. -/
def hashBlobPartial (κ : Primitives) (s : BlobStore) (executionId : ExecId) (hash : BlobHash)
    (tail : Bytes) : Except StoreError BlobHash := do
  let row ← okOr (s.blobPartial executionId hash) (.corruption "hashing a missing blob partial")
  let content := (s.files (.received executionId hash)).getD []
  ensure (row.written ≤ content.length)
    (.corruption "blob partial file is shorter than written")
  return ⟨κ.blake3 (content.take row.written ++ tail)⟩

end BlobStore

namespace Sandbox

/-! ## The imports -/

/-- What a dispatch can ask of the Host about the objects it receives. -/
structure BlobView where
  blobPartial : BlobHash → Except String (Option BlobPartial)
  hashPartial : BlobHash → Bytes → Except String BlobHash

def storeBlobView (κ : Primitives) (s : BlobStore) (executionId : ExecId) : BlobView where
  blobPartial hash := .ok (s.blobPartial executionId hash)
  hashPartial hash tail := (s.hashBlobPartial κ executionId hash tail).mapError toString

inductive BlobError where
  | notFound | quota | badRange | badAttachment | incomplete | mismatch
  deriving DecidableEq

def blobStatus : BlobError → UInt32
  | .notFound => 1
  | .quota => 2
  | .badRange => 3
  | .badAttachment => 4
  | .incomplete => 5
  | .mismatch => 6

/-- What the imports read and write during one dispatch that receives blobs. -/
structure BlobScope where
  host : HostState
  blobs : Option BlobView
  stagedBlobs : List BlobChange
  attachment : Option Bytes
  hashPerByte : UInt64

structure Receive where
  length : Option ℕ
  written : ℕ
  committed : Bool
  durable : Bool
  deriving DecidableEq

namespace Receive

def ofPartial (row : Option BlobPartial) : Receive where
  length := row.map (·.length)
  written := (row.map (·.written)).getD 0
  committed := row.any (·.committed)
  durable := row.isSome

def overlay (hash : BlobHash) (receive : Receive) : BlobChange → Receive
  | .append h length _ bytes =>
    if h = hash then
      { receive with length := some length, written := receive.written + bytes.length }
    else receive
  | .commit h => if h = hash then { receive with committed := true } else receive

end Receive

def stagedTail (hash : BlobHash) (changes : List BlobChange) : Bytes :=
  changes.flatMap fun
    | .append h _ _ bytes => if h = hash then bytes else []
    | .commit _ => []

namespace BlobScope

def receiveState (scope : BlobScope) (hash : BlobHash) : Except Trap Receive := do
  let view ← okOr scope.blobs (.message "blob view unavailable")
  let row ← (view.blobPartial hash).mapError .message
  return scope.stagedBlobs.foldl (Receive.overlay hash) (Receive.ofPartial row)

def readBlobHash (scope : BlobScope) (memory : Bytes) (ptr : UInt32) (name : String) :
    Except Trap (BlobScope × BlobHash) := do
  let (host, bytes) ← scope.host.readGuestBytes memory ptr 32 name
  let bytes ← okOr (FixedBytes.ofBytes? 32 bytes) (.message "hash width")
  return ({ scope with host := host }, ⟨bytes⟩)

/-- The attachment an append names: token zero, and not empty. -/
def attached (scope : BlobScope) (attachment : UInt32) : Option Bytes :=
  scope.attachment.filter fun bytes => attachment = 0 && !bytes.isEmpty

def blobAppend (scope : BlobScope) (memory : Bytes) (hashPtr : UInt32) (length : UInt64)
    (attachment : UInt32) : Except Trap (BlobScope × UInt32) := do
  let host ← scope.host.beginImport
  host.requireLocal "blob_append"
  let (scope, hash) ← ({ scope with host := host } : BlobScope).readBlobHash memory hashPtr
    "blob_append"
  if maxBlobBytes < length.toNat then return (scope, blobStatus .quota)
  else match scope.attached attachment with
  | none => return (scope, blobStatus .badAttachment)
  | some bytes => do
    let receive ← scope.receiveState hash
    if receive.committed = true ∨ (∃ known ∈ receive.length, known ≠ length.toNat) ∨
        length.toNat < receive.written + bytes.length then
      return (scope, blobStatus .badRange)
    else do
      let ledger ← (scope.host.ledger.copyBytes bytes.length scope.host.limits.maxHostBytes).mapError
        Trap.sandbox
      return ({ scope with
        host := { scope.host with ledger := ledger }
        stagedBlobs := scope.stagedBlobs ++ [.append hash length.toNat receive.written bytes] }, 0)

variable (κ) in
/-- The digest of what the dispatch sees of an object. -/
def digest (scope : BlobScope) (hash : BlobHash) (durable : Bool) : Except Trap BlobHash :=
  let tail := stagedTail hash scope.stagedBlobs
  if durable then do
    let view ← okOr scope.blobs (.message "blob view unavailable")
    (view.hashPartial hash tail).mapError .message
  else .ok ⟨κ.blake3 tail⟩

variable (κ) in
/-- Stage the commit of a complete object whose bytes hash to its name.  `fuel` is what the guest
has left at the call. -/
def blobCommit (scope : BlobScope) (memory : Bytes) (fuel : UInt64) (hashPtr : UInt32) :
    Except Trap (BlobScope × UInt32) := do
  let host ← scope.host.beginImport
  host.requireLocal "blob_commit"
  let (scope, hash) ← ({ scope with host := host } : BlobScope).readBlobHash memory hashPtr
    "blob_commit"
  let receive ← scope.receiveState hash
  match receive.length with
  | none => return (scope, blobStatus .notFound)
  | some length =>
    if receive.committed then return (scope, blobStatus .badRange)
    else if receive.written ≠ length then return (scope, blobStatus .incomplete)
    else do
      ensure (UInt64.ofNat length * scope.hashPerByte ≤ fuel)
        (Trap.message "blob_commit: insufficient fuel")
      let digest ← scope.digest κ hash receive.durable
      if digest ≠ hash then return (scope, blobStatus .mismatch)
      else return ({ scope with stagedBlobs := scope.stagedBlobs ++ [.commit hash] }, 0)

end BlobScope

inductive BlobImport where
  | blobAppend (hashPtr : UInt32) (length : UInt64) (attachment : UInt32)
  | blobCommit (hashPtr : UInt32)
  | effect (imported : Import)

section

variable (κ) (fromUtf8Lossy : Bytes → String)

namespace BlobScope

/-- Run one import over the work memory and the fuel as they are at the call. -/
def call (scope : BlobScope) (memory : Bytes) (fuel : UInt64) :
    BlobImport → Except Trap (BlobScope × UInt32)
  | .blobAppend hashPtr length attachment => scope.blobAppend memory hashPtr length attachment
  | .blobCommit hashPtr => scope.blobCommit κ memory fuel hashPtr
  | .effect imported => do
    let (host, code) ← scope.host.call fromUtf8Lossy memory imported
    return ({ scope with host := host }, code)

def run (scope : BlobScope) : List (Bytes × UInt64 × BlobImport) → Except Trap BlobScope
  | [] => .ok scope
  | (memory, fuel, imported) :: calls => do
    let (scope, _) ← scope.call κ fromUtf8Lossy memory fuel imported
    scope.run calls

end BlobScope

end

end Sandbox

end Arena0
