import Arena0.Publication
import Arena0.BorshCanonical

/-!
# Receipt bytes

Every part of a receipt is read as it is written, except the participants of a
session start: their reader sorts and deduplicates the list it finds.  Accepted
receipt bytes are therefore the bytes of the receipt exactly when the participant
lists they hold are ascending.
-/

namespace Arena0

open Borsh Fallible

variable {κ : Primitives}

/-! ## The parts that are read as written -/

theorem Id.canonical_codec {k : IdKind} : (Id.codec (k := k)).Canonical :=
  (Codec.canonical_fixed 32).equiv _

private theorem JsonBytes.canonical_codec : (JsonBytes.codec κ).Canonical := by
  refine (Codec.canonical_byteVec _ _).partialInv _ ?_
  intro bytes json h
  unfold tryNew at h
  split at h
  · split at h
    · cases h
      rfl
    · cases h
  · cases h

private theorem OfferData.canonical_codec : (OfferData.codec κ).Canonical :=
  ((Codec.canonical_fixed 24).pair <| Codec.canonical_u16.pair <| Id.canonical_codec.pair <|
    Codec.canonical_u64.pair <| Id.canonical_codec.pair <| Id.canonical_codec.pair <|
    Id.canonical_codec.pair <| JsonBytes.canonical_codec.pair <| Codec.canonical_u16.pair <|
    Id.canonical_codec.pair Codec.canonical_u64).equiv _

private theorem Offer.canonical_codec : (Offer.codec (κ := κ)).Canonical :=
  ((OfferData.canonical_codec.pair (Id.canonical_codec.vec _ _)).equiv _).guarded _

theorem Ticket.canonical_codec : Ticket.codec.Canonical := by
  have haction : TicketAction.codec.Canonical :=
    ((((Codec.canonical_fixed 96).pair <| (Codec.canonical_fixed 48).pair <|
      Codec.canonical_u64.pair Codec.canonical_u32).cons Codec.canonical_unit.last).enum _).equiv _
  have hdata : TicketData.codec.Canonical :=
    ((Codec.canonical_fixed 24).pair <| Codec.canonical_u16.pair <| Id.canonical_codec.pair <|
      Codec.canonical_u64.pair <| Id.canonical_codec.pair <| Codec.canonical_u64.pair haction).equiv _
  exact (hdata.pair (Codec.canonical_fixed 64)).equiv _

private theorem PreparedActivation.canonical_codec : (codec (κ := κ)).Canonical := by
  refine (Codec.canonical_u8.pair <| Offer.canonical_codec.pair <|
    Ticket.canonical_codec.vec _ _).partialInv _ ?_
  rintro ⟨version, offer, tickets⟩ prepared h
  dsimp only at h
  split at h
  · rename_i hversion
    unfold new at h
    split at h
    · cases h
      rw [hversion]
    · cases h
  · cases h

private theorem Activation.canonical_codec : (codec (κ := κ)).Canonical := by
  refine (Codec.canonical_u8.pair <| PreparedActivation.canonical_codec.pair <|
    Codec.canonical_fixed 48).partialInv _ ?_
  rintro ⟨version, prepared, aggregate⟩ activation h
  dsimp only at h
  split at h
  · rename_i hversion
    unfold new at h
    split at h
    · cases h
      rw [hversion]
    · cases h
  · cases h

theorem StepCommitment.canonical_codec : codec.Canonical :=
  ((Codec.canonical_fixed 24).pair <| Id.canonical_codec.pair <| Codec.canonical_u64.pair <|
    (Codec.canonical_fixed 32).pair <| Id.canonical_codec.pair <| Id.canonical_codec.pair <|
    Codec.canonical_fixed 32).equiv _

private theorem AbortKind.canonical_codec : AbortKind.codec.Canonical :=
  ((Codec.canonical_unit.cons Codec.canonical_unit.last).enum _).equiv _

private theorem StepCursor.canonical_codec : codec.Canonical :=
  (Codec.canonical_u64.pair <| Id.canonical_codec.pair <| Codec.canonical_fixed 32).equiv _

private theorem AggregateAttestation.canonical_codec : codec.Canonical :=
  ((Codec.canonical_fixed 48).pair ((Codec.canonical_byteVec _ _).equiv _)).equiv _

private theorem StepTerminal.canonical_codec : codec.Canonical :=
  (((Codec.canonical_byteVec _ _).cons <| (Codec.canonical_string _ _).cons
    (Codec.canonical_string _ _).last).enum _).equiv _

theorem AbortOccurrence.canonical_codec : codec.Canonical :=
  (((Codec.canonical_fixed 24).pair <| Codec.canonical_u16.pair <| Id.canonical_codec.pair <|
    Id.canonical_codec.pair <| AbortKind.canonical_codec.pair <| Codec.canonical_u32.pair <|
    (Codec.canonical_string _ _).pair <| StepCursor.canonical_codec.pair <|
    Codec.canonical_fixed 64).equiv _).guarded _

private theorem ReceiptTermination.canonical_codec : codec.Canonical := by
  have hcause : StopCause.codec.Canonical :=
    ((AbortOccurrence.canonical_codec.cons (AbortKind.canonical_codec.pair <|
      StepCommitment.canonical_codec.pair <| Codec.canonical_string _ _).last).enum _).equiv _
  exact ((Codec.canonical_unit.cons hcause.last).enum _).equiv _

/-! ## The layout of a receipt -/

/-- A step event as it stands in the bytes, the participants in the order they are written in. -/
inductive WrittenEvent where
  | sessionStarted (peers : List PeerId)
  | message (source : PeerId) (data : Bytes)
  deriving DecidableEq

structure WrittenEntry where
  traceVersion : UInt32
  step : UInt64
  event : WrittenEvent
  preState : StateHash
  postState : StateHash
  terminal : Option StepTerminal
  agreement : AggregateAttestation
  deriving DecidableEq

variable (κ) in
/-- A receipt body as it stands in the bytes. -/
structure WrittenBody where
  header : SessionHeader κ
  outcome : Bytes
  params : Bytes
  trace : List WrittenEntry
  deriving DecidableEq

def WrittenEvent.codec : Codec WrittenEvent :=
  (Codec.enum (.cons peersCodec
    (.last (Id.codec.pair payloadCodec)))).equiv
  { toFun := fun
      | .inl peers => .sessionStarted peers
      | .inr (source, data) => .message source data
    invFun := fun
      | .sessionStarted peers => .inl peers
      | .message source data => .inr (source, data)
    left_inv := by rintro (_ | _) <;> rfl
    right_inv := by rintro (_ | _) <;> rfl }

def WrittenEntry.codec : Codec WrittenEntry :=
  (Codec.u32.pair <| Codec.u64.pair <| WrittenEvent.codec.pair <| Id.codec.pair <|
    Id.codec.pair <| StepTerminal.codec.option.pair AggregateAttestation.codec).equiv
  { toFun := fun (a, b, c, d, e, f, g) => ⟨a, b, c, d, e, f, g⟩
    invFun := fun t => (t.traceVersion, t.step, t.event, t.preState, t.postState, t.terminal,
      t.agreement) }

def WrittenBody.codec : Codec (WrittenBody κ) :=
  ((SessionHeader.codec (κ := κ)).pair <|
    outcomeBytesCodec.pair <| paramsCodec.pair <| traceCodec WrittenEntry.codec).equiv
  { toFun := fun (a, b, c, d) => ⟨a, b, c, d⟩
    invFun := fun r => (r.header, r.outcome, r.params, r.trace) }

private theorem WrittenEvent.canonical_codec : codec.Canonical :=
  (((Id.canonical_codec.vec _ _).cons
    (Id.canonical_codec.pair (Codec.canonical_byteVec _ _)).last).enum _).equiv _

private theorem WrittenEntry.canonical_codec : codec.Canonical :=
  (Codec.canonical_u32.pair <| Codec.canonical_u64.pair <| WrittenEvent.canonical_codec.pair <|
    Id.canonical_codec.pair <| Id.canonical_codec.pair <| StepTerminal.canonical_codec.option.pair
    AggregateAttestation.canonical_codec).equiv _

private theorem SessionHeader.canonical_codec : (codec (κ := κ)).Canonical :=
  (Activation.canonical_codec.pair ReceiptTermination.canonical_codec).equiv _

private theorem WrittenBody.canonical_codec : (codec (κ := κ)).Canonical :=
  (SessionHeader.canonical_codec.pair <| (Codec.canonical_byteVec _ _).pair <|
    (Codec.canonical_byteVec _ _).pair <| WrittenEntry.canonical_codec.vec _ _).equiv _

/-! ## Writing and normalising -/

def StepEvent.written : StepEvent → WrittenEvent
  | .sessionStarted ensemble => .sessionStarted ensemble.peers
  | .message source data => .message source data

def WrittenEvent.read : WrittenEvent → Option StepEvent
  | .sessionStarted peers => (Ensemble.fromPeers peers).toOption.map .sessionStarted
  | .message source data => some (.message source data)

def TraceEntry.written (e : TraceEntry) : WrittenEntry :=
  ⟨e.traceVersion, e.step, e.event.written, e.preState, e.postState, e.terminal, e.agreement⟩

def WrittenEntry.read (e : WrittenEntry) : Option TraceEntry :=
  e.event.read.map fun event =>
    ⟨e.traceVersion, e.step, event, e.preState, e.postState, e.terminal, e.agreement⟩

def ReceiptBody.written (body : ReceiptBody κ) : WrittenBody κ :=
  ⟨body.header, body.outcome, body.params, body.trace.map TraceEntry.written⟩

def WrittenBody.read (body : WrittenBody κ) : Option (ReceiptBody κ) :=
  (body.trace.mapM WrittenEntry.read).map fun trace =>
    ⟨body.header, body.outcome, body.params, trace⟩

theorem StepEvent.through_codec :
    Codec.Through codec WrittenEvent.codec written WrittenEvent.read := by
  have hensemble : Codec.Through Ensemble.codec peersCodec
      Ensemble.peers (fun peers => (Ensemble.fromPeers peers).toOption) :=
    Codec.through_partialInv _ fun e => by simpa using e.bounds.2
  refine (hensemble.enum (Id.canonical_codec.pair (Codec.canonical_byteVec _ _)).last
    (by simp) (by simp)).equiv _ _ ?_ ?_
  · intro b
    cases b <;> rfl
  · intro a
    cases a with
    | inl peers =>
      show (Ensemble.fromPeers peers).toOption.map StepEvent.sessionStarted = _
      simp only [Sum.elim_inl, Option.map_map]
      rfl
    | inr message => rfl

theorem TraceEntry.through_codec :
    Codec.Through codec WrittenEntry.codec written WrittenEntry.read := by
  refine ((Codec.canonical_u32.through.pair <| Codec.canonical_u64.through.pair <|
    StepEvent.through_codec.pair <| Id.canonical_codec.through.pair <|
    Id.canonical_codec.through.pair <| StepTerminal.canonical_codec.option.through.pair
    AggregateAttestation.canonical_codec.through).equiv _ _ ?_ ?_).guarded _
  · intro b
    rfl
  · rintro ⟨version, step, event, pre, post, terminal, agreement⟩
    show event.read.map _ = _
    cases event.read <;> rfl

theorem ReceiptBody.through_codec :
    Codec.Through (fieldsCodec (κ := κ)) WrittenBody.codec written WrittenBody.read := by
  refine (SessionHeader.canonical_codec.through.pair <|
    (Codec.canonical_byteVec _ _).through.pair <| (Codec.canonical_byteVec _ _).through.pair <|
    TraceEntry.through_codec.vec _ _).equiv _ _ ?_ ?_
  · intro b
    rfl
  · rintro ⟨header, outcome, params, trace⟩
    show (trace.mapM WrittenEntry.read).map _ = _
    cases trace.mapM WrittenEntry.read <;> rfl

/-! ## Ascending participants -/

/-- The participants of a session start are written in ascending order. -/
def WrittenEvent.Ascending : WrittenEvent → Prop
  | .sessionStarted peers => peers.Pairwise (· < ·)
  | .message .. => True

theorem Ensemble.peers_eq_iff {peers : List PeerId} {e : Ensemble}
    (h : Ensemble.fromPeers peers = .ok e) : e.peers = peers ↔ peers.Pairwise (· < ·) := by
  constructor
  · intro heq
    rw [← heq]
    exact e.sorted
  · intro hsorted
    unfold fromPeers at h
    split at h
    · cases h
    · split at h
      · cases h
      · cases h
        exact sortDedup_of_sorted hsorted

theorem WrittenEvent.written_eq_iff {a : WrittenEvent} {event : StepEvent}
    (h : a.read = some event) : event.written = a ↔ a.Ascending := by
  cases a with
  | message source data =>
    cases h
    exact ⟨fun _ => trivial, fun _ => rfl⟩
  | sessionStarted peers =>
    obtain ⟨e, he, rfl⟩ := Option.map_eq_some_iff.1 h
    cases hpeers : Ensemble.fromPeers peers with
    | error error =>
      rw [hpeers] at he
      cases he
    | ok e' =>
      rw [hpeers] at he
      cases he
      rw [Ascending, ← Ensemble.peers_eq_iff hpeers, StepEvent.written]
      exact ⟨WrittenEvent.sessionStarted.inj, congrArg _⟩

theorem WrittenEntry.written_eq_iff {a : WrittenEntry} {e : TraceEntry} (h : a.read = some e) :
    e.written = a ↔ a.event.Ascending := by
  obtain ⟨event, hevent, rfl⟩ := Option.map_eq_some_iff.1 h
  rw [← WrittenEvent.written_eq_iff hevent]
  constructor
  · exact congrArg WrittenEntry.event
  · intro heq
    simp only [TraceEntry.written, heq]

theorem written_trace_eq_iff {as : List WrittenEntry} {trace : List TraceEntry}
    (h : as.mapM WrittenEntry.read = some trace) :
    trace.map TraceEntry.written = as ↔ ∀ a ∈ as, a.event.Ascending := by
  induction as generalizing trace with
  | nil =>
    cases h
    simp
  | cons a as ih =>
    rw [List.mapM_cons] at h
    obtain ⟨e, he, h⟩ := Option.bind_eq_some_iff.1 h
    obtain ⟨rest, hrest, heq⟩ := Option.bind_eq_some_iff.1 h
    cases heq
    rw [List.map_cons, List.cons.injEq, WrittenEntry.written_eq_iff he, ih hrest,
      List.forall_mem_cons]

variable (κ) in
/-- The participant lists that stand in receipt bytes are ascending. -/
def PeersAscending (bytes : Bytes) : Prop :=
  ∀ body : WrittenBody κ, WrittenBody.codec.fromSlice (bytes.drop 2) = some body →
    ∀ entry ∈ body.trace, entry.event.Ascending

/-! ## Artifacts -/

theorem ReceiptArtifact.encode_eq_ok (artifact : ReceiptArtifact κ) :
    artifact.encode = .ok (receiptVersion :: artifact.body.encode) := by
  have hauth := artifact.authentic
  simp only [authenticate, bind_eq_ok, pure_eq_ok] at hauth
  obtain ⟨_, _, _, _, _, _, bytes, hencode, -⟩ := hauth
  rw [encode, hencode]
  simp only [encodeArtifact, bind_eq_ok, pure_eq_ok, ReceiptBody.toVec_eq_ok] at hencode
  obtain ⟨_, ⟨-, rfl⟩, _, -, rfl⟩ := hencode
  rfl

theorem ReceiptArtifact.decode_eq_ok {bytes : Bytes} {artifact : ReceiptArtifact κ}
    (h : decode bytes = .ok artifact) :
    ∃ rest, bytes = receiptVersion :: receiptBodyVersion :: rest ∧
      ReceiptBody.fieldsCodec.decode rest = some (artifact.body, []) := by
  simp only [decode, bind_eq_ok] at h
  obtain ⟨-, -, h⟩ := h
  split at h
  · rename_i v w rest
    simp only [bind_eq_ok, ensure_eq_ok, okOr_eq_ok] at h
    obtain ⟨_, rfl, _, rfl, body, hbody, _, -, hnew⟩ := h
    refine ⟨rest, rfl, ?_⟩
    have hsame : artifact.body = body := by
      unfold new at hnew
      split at hnew
      · cases hnew
        rfl
      · cases hnew
    unfold Codec.fromSlice at hbody
    split at hbody
    · rename_i a hdecode
      cases hbody
      rw [hdecode, hsame]
    · cases hbody
  · cases h

/-- Accepted bytes are those of the receipt exactly when their participant lists are ascending. -/
theorem ReceiptArtifact.encode_eq_iff {bytes : Bytes} {artifact : ReceiptArtifact κ}
    (h : decode bytes = .ok artifact) : artifact.encode = .ok bytes ↔ PeersAscending κ bytes := by
  obtain ⟨rest, rfl, hfields⟩ := decode_eq_ok h
  obtain ⟨written, hwritten, hread, hiff⟩ :=
    ReceiptBody.through_codec.eq_encode_iff WrittenBody.canonical_codec hfields
  have hslice : WrittenBody.codec.fromSlice rest = some written := by
    simp [Codec.fromSlice, hwritten]
  obtain ⟨trace, htrace, hbody⟩ := Option.map_eq_some_iff.1 hread
  have hascending : PeersAscending κ (receiptVersion :: receiptBodyVersion :: rest) ↔
      ∀ entry ∈ written.trace, entry.event.Ascending := by
    constructor
    · exact fun hall => hall written hslice
    · intro hall body hother
      cases hslice.symm.trans hother
      exact hall
  rw [hascending, ← written_trace_eq_iff htrace, encode_eq_ok, ReceiptBody.encode]
  simp only [Except.ok.injEq, List.cons.injEq, true_and]
  rw [eq_comm, ← List.append_nil (ReceiptBody.fieldsCodec.encode _), hiff, ← hbody]
  constructor
  · exact congrArg WrittenBody.trace
  · intro heq
    simp only [ReceiptBody.written, heq]

def ReceiptBody.identityBytes (body : ReceiptBody κ) : Bytes :=
  Codec.utf8 "arena0/receipt/v5" ++ receiptVersion :: body.encode

theorem ReceiptArtifact.receiptId_eq (artifact : ReceiptArtifact κ) :
    artifact.receiptId = ⟨κ.blake3 artifact.body.identityBytes⟩ := by
  have hauth := artifact.authentic
  simp only [authenticate, bind_eq_ok, pure_eq_ok] at hauth
  obtain ⟨_, _, _, _, id, hid, _, -, rfl⟩ := hauth
  simp only [ReceiptId.deriveBody, bind_eq_ok, pure_eq_ok, ReceiptBody.toVec_eq_ok] at hid
  obtain ⟨_, ⟨-, rfl⟩, _, -, hid⟩ := hid
  exact hid.symm

/-- Accepted receipt bytes are the encoding of their receipt exactly when the participant lists
in them are ascending; among such bytes, a receipt and its identity belong to one byte string. -/
theorem receipt_bytes_canonical_iff {bytes : Bytes} {artifact : ReceiptArtifact κ}
    (h : ReceiptArtifact.decode bytes = .ok artifact) :
    (artifact.encode = .ok bytes ↔ PeersAscending κ bytes) ∧
    (PeersAscending κ bytes → ∀ (other : Bytes) (artifact' : ReceiptArtifact κ),
      ReceiptArtifact.decode other = .ok artifact' → PeersAscending κ other →
        (artifact = artifact' → bytes = other) ∧
        (Set.InjOn κ.blake3 {artifact.body.identityBytes, artifact'.body.identityBytes} →
          artifact.receiptId = artifact'.receiptId → bytes = other)) := by
  refine ⟨ReceiptArtifact.encode_eq_iff h, ?_⟩
  intro hascending other artifact' h' hascending'
  have hbytes := (ReceiptArtifact.encode_eq_iff h).2 hascending
  have hother := (ReceiptArtifact.encode_eq_iff h').2 hascending'
  rw [ReceiptArtifact.encode_eq_ok, Except.ok.injEq] at hbytes hother
  refine ⟨?_, ?_⟩
  · intro heq
    rw [← hbytes, ← hother, heq]
  · intro hinj hid
    rw [ReceiptArtifact.receiptId_eq, ReceiptArtifact.receiptId_eq] at hid
    have hpreimage := hinj (by simp) (by simp) (congrArg Id.bytes hid)
    rw [← hbytes, ← hother]
    exact List.append_cancel_left hpreimage

namespace Sample

/-- The bytes of the stop report of the reference host, its trace entries changed. -/
def reportBytes (change : WrittenEntry → WrittenEntry) : Bytes :=
  match stoppedHost.db.assembleReceipt stoppedHost.db.state with
  | .ok artifact => receiptVersion :: receiptBodyVersion :: WrittenBody.codec.encode
      { artifact.body.written with trace := artifact.body.written.trace.map change }
  | .error _ => []

/-- The entry with the participants of a session start in reverse order. -/
def reverseEntry (e : WrittenEntry) : WrittenEntry :=
  match e.event with
  | .sessionStarted peers => { e with event := .sessionStarted peers.reverse }
  | .message .. => e

end Sample

open Sample in
theorem receipt_bytes_canonical_iff_report :
    ∃ artifact : ReceiptArtifact referencePrimitives,
      ReceiptArtifact.decode (reportBytes id) = .ok artifact ∧
        PeersAscending referencePrimitives (reportBytes id) := by
  have hcheck : (ReceiptArtifact.decode (κ := referencePrimitives)
      (reportBytes id)).toOption.any (·.encode = .ok (reportBytes id)) = true := by
    decide +kernel
  obtain ⟨artifact, h, hencode⟩ := exists_ok_of_any hcheck
  exact ⟨artifact, h, (receipt_bytes_canonical_iff h).1.1 hencode⟩

/-- Reversing the participants in a receipt gives other bytes that are accepted as that receipt. -/
theorem reversed_receipt_accepted :
    ¬ ∀ (bytes : Bytes) (artifact : ReceiptArtifact referencePrimitives),
      ReceiptArtifact.decode bytes = .ok artifact → artifact.encode = .ok bytes := by
  intro hall
  have hcheck : (ReceiptArtifact.decode (κ := referencePrimitives)
      (Sample.reportBytes Sample.reverseEntry)).toOption.any
        (·.encode ≠ .ok (Sample.reportBytes Sample.reverseEntry)) = true := by decide +kernel
  obtain ⟨artifact, hdecode, hne⟩ := exists_ok_of_any hcheck
  exact hne (hall _ artifact hdecode)

end Arena0
