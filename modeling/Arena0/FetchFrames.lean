import Arena0.DurableState
import Arena0.WireCodec

/-!
# Fetch frames

A signer pulls the frozen tickets of a session from its creator: a request with
the session hash, and a response with the tickets in their frozen order, each as
length-prefixed bytes.  Both sides check the count and the size of the response and
every ticket in it.
-/

namespace Arena0

open Borsh Fallible

def maxFetchTickets : ℕ := 64
def maxFetchTicketBytes : ℕ := 4 * 1024
def maxFetchResponseBytes : ℕ := 32 * 1024

inductive FetchError where
  | negotiation (error : NegotiationError)
  | fetchTooManyTickets (max len : ℕ)
  | fetchResponseTooLarge (max len : ℕ)
  | decode (message : String)
  deriving DecidableEq

instance : ToString FetchError where
  toString
    | .negotiation error => toString error
    | .fetchTooManyTickets max len =>
      s!"activation fetch has too many tickets: {len}, maximum {max}"
    | .fetchResponseTooLarge max len =>
      s!"activation fetch response exceeds {max} bytes, got {len}"
    | .decode message => s!"invalid negotiation Borsh frame: {message}"

def FetchError.toStream (error : FetchError) : StreamError := .other (toString error)

def usizeMax : ℕ := 2 ^ 64 - 1

def checkedAddUsize (a b : ℕ) : Option ℕ :=
  if a + b ≤ usizeMax then some (a + b) else none

/-- The body size of a response whose tickets encode to the given lengths: the kind, the session
hash, the count and each ticket behind its length. -/
def responseBodyLen (ticketLens : List ℕ) : ℕ :=
  (ticketLens.foldlM (fun total len => (checkedAddUsize total 4).bind (checkedAddUsize · len))
    (1 + 32 + 4)).getD usizeMax

def Ticket.decode (bytes : Bytes) : Except FetchError Ticket := do
  ensure (bytes.length ≤ maxNegotiationFactBytes)
    (.negotiation (.factTooLarge maxNegotiationFactBytes bytes.length))
  let ticket ← okOr (Ticket.codec.fromSlice bytes) (.decode (toString FrameError.field))
  ticket.validate.mapError .negotiation
  return ticket

structure ActivationTickets where
  sessionHash : SessionHash
  tickets : List Ticket
  deriving DecidableEq

def ActivationTickets.validate (response : ActivationTickets) : Except FetchError Unit := do
  ensure (response.tickets.length ≤ maxFetchTickets)
    (.fetchTooManyTickets maxFetchTickets response.tickets.length)
  forAll (fun ticket => ticket.validate.mapError .negotiation) response.tickets
  let len := responseBodyLen (response.tickets.map fun ticket => (Ticket.codec.encode ticket).length)
  ensure (len ≤ maxFetchResponseBytes) (.fetchResponseTooLarge maxFetchResponseBytes len)

inductive FetchFrame where
  | fetchActivationTickets (sessionHash : SessionHash)
  | activationTickets (response : ActivationTickets)
  deriving DecidableEq

namespace FetchFrame

def validate : FetchFrame → Except FetchError Unit
  | .fetchActivationTickets _ => .ok ()
  | .activationTickets response => response.validate

def serialize {m : Type → Type} [Monad m] [MonadExceptOf StreamError m] (frame : FetchFrame)
    (write : Bytes → m Unit) : m Unit :=
  match frame with
  | .fetchActivationTickets sessionHash => do
    write [0]
    write sessionHash.bytes.bytes
  | .activationTickets response => do
    check (checkCollectionLen response.tickets.length maxFetchTickets "fetch.tickets")
    check (response.validate.mapError FetchError.toStream)
    let tickets := response.tickets.map Ticket.codec.encode
    write [1]
    write response.sessionHash.bytes.bytes
    writeCollectionLen write tickets.length maxFetchTickets "fetch.tickets"
    writeTickets tickets
where
  writeTickets : List Bytes → m Unit
    | [] => pure ()
    | ticket :: tickets => do
      writeBoundedBytes write ticket maxFetchTicketBytes "fetch.ticket"
      writeTickets tickets

def readTickets : ℕ → Bytes → Except StreamError (List Bytes × Bytes)
  | 0, bytes => .ok ([], bytes)
  | count + 1, bytes => do
    let (ticket, bytes) ←
      (readBoundedBytes bytes maxFetchTicketBytes "fetch.ticket").mapError .ofFrame
    let (tickets, bytes) ← readTickets count bytes
    return (ticket :: tickets, bytes)

def checkResponseLen (tickets : List Bytes) : Except StreamError Unit :=
  let size := responseBodyLen (tickets.map List.length)
  ensure (size ≤ maxFetchResponseBytes)
    (.wire (.valueTooLarge "fetch.response" size maxFetchResponseBytes))

def decodeTickets : List Bytes → Except StreamError (List Ticket)
  | [] => .ok []
  | ticket :: tickets => do
    let ticket ← (Ticket.decode ticket).mapError FetchError.toStream
    let tickets ← decodeTickets tickets
    return ticket :: tickets

def deserialize : Bytes → Except StreamError (FetchFrame × Bytes)
  | [] => .error (.ofFrame .field)
  | tag :: rest =>
    match tag.toNat with
    | 0 => do
      let (sessionHash, rest) ← okOr (Id.codec.decode rest) (.ofFrame .field)
      return (.fetchActivationTickets sessionHash, rest)
    | 1 => do
      let (sessionHash, rest) ← okOr (Id.codec.decode rest) (.ofFrame .field)
      let (count, rest) ← readCollectionLen rest maxFetchTickets "fetch.tickets"
      let (encoded, rest) ← readTickets count rest
      checkResponseLen encoded
      let tickets ← decodeTickets encoded
      let response : ActivationTickets := ⟨sessionHash, tickets⟩
      response.validate.mapError FetchError.toStream
      return (.activationTickets response, rest)
    | _ => .error (.other s!"unknown fetch frame tag {tag}")

end FetchFrame

/-! ## Sizes -/

theorem Ticket.decode_eq_ok {bytes : Bytes} {t : Ticket} :
    Ticket.decode bytes = .ok t ↔ t.validate = .ok () ∧ bytes = Ticket.codec.encode t := by
  simp only [Ticket.decode, bind_eq_ok, ensure_eq_ok, okOr_eq_ok, mapError_eq_ok, pure_eq_ok]
  constructor
  · rintro ⟨_, -, t', hread, _, hvalid, rfl⟩
    unfold Codec.fromSlice at hread
    split at hread
    next t'' heq =>
      cases hread
      obtain ⟨hbytes, -⟩ := Ticket.canonical_codec _ _ _ heq
      rw [List.append_nil] at hbytes
      exact ⟨hvalid, hbytes⟩
    · cases hread
  · rintro ⟨hvalid, rfl⟩
    have hle := t.within.length_le
    have hmax : maxNegotiationFactBytes = 4096 := rfl
    exact ⟨(), by omega, t, Ticket.codec.fromSlice_encode t.within.valid, (), hvalid, rfl⟩

theorem responseBodyLen_eq {lens : List ℕ} (h : 37 + (lens.map (4 + ·)).sum ≤ usizeMax) :
    responseBodyLen lens = 37 + (lens.map (4 + ·)).sum := by
  suffices hfold : ∀ total, total + (lens.map (4 + ·)).sum ≤ usizeMax →
      lens.foldlM (fun total len => (checkedAddUsize total 4).bind (checkedAddUsize · len)) total =
        some (total + (lens.map (4 + ·)).sum) by
    rw [responseBodyLen, hfold 37 h, Option.getD_some]
  clear h
  induction lens with
  | nil => exact fun total _ => rfl
  | cons len lens ih =>
    intro total h
    rw [List.map_cons, List.sum_cons] at h ⊢
    have hadd : (checkedAddUsize total 4).bind (checkedAddUsize · len) = some (total + 4 + len) := by
      rw [checkedAddUsize, if_pos (by omega), Option.bind_some, checkedAddUsize, if_pos (by omega)]
    rw [List.foldlM_cons, hadd]
    change lens.foldlM _ (total + 4 + len) = _
    rw [ih (total + 4 + len) (by omega)]
    congr 1
    omega

namespace ActivationTickets

variable {response : ActivationTickets}

def ticketLens (response : ActivationTickets) : List ℕ :=
  response.tickets.map fun ticket => (Ticket.codec.encode ticket).length

theorem sum_ticketLens_le (response : ActivationTickets) :
    (response.ticketLens.map (4 + ·)).sum ≤ response.tickets.length * 331 := by
  have h := List.sum_le_card_nsmul (response.ticketLens.map (4 + ·)) 331 (by
    intro n hn
    obtain ⟨len, hlen, rfl⟩ := List.mem_map.1 hn
    obtain ⟨t, -, rfl⟩ := List.mem_map.1 hlen
    have := t.within.length_le
    omega)
  simpa [ticketLens] using h

theorem responseBodyLen_ticketLens (h : response.tickets.length ≤ maxFetchTickets) :
    responseBodyLen response.ticketLens = 37 + (response.ticketLens.map (4 + ·)).sum := by
  have hsum := response.sum_ticketLens_le
  have hmax : maxFetchTickets = 64 := rfl
  have husize : usizeMax = 18446744073709551615 := rfl
  exact responseBodyLen_eq (by omega)

theorem validate_eq_ok : response.validate = .ok () ↔
    response.tickets.length ≤ maxFetchTickets ∧ ∀ t ∈ response.tickets, t.validate = .ok () := by
  simp only [validate, bind_eq_ok, ensure_eq_ok, forAll_eq_ok, mapError_eq_ok]
  constructor
  · rintro ⟨_, hcount, _, hall, -⟩
    exact ⟨hcount, hall⟩
  · rintro ⟨hcount, hall⟩
    refine ⟨(), hcount, (), hall, ?_⟩
    have hsum := response.sum_ticketLens_le
    have hmax : maxFetchTickets = 64 := rfl
    have hbytes : maxFetchResponseBytes = 32768 := rfl
    have hlen := responseBodyLen_ticketLens hcount
    change responseBodyLen response.ticketLens ≤ _
    omega

end ActivationTickets

/-! ## Writer and reader -/

namespace FetchFrame

def ticketParts (tickets : List Bytes) : List Bytes :=
  tickets.flatMap fun ticket => [Codec.leBytes 4 ticket.length, ticket]

def parts : FetchFrame → List Bytes
  | .fetchActivationTickets sessionHash => [[0], sessionHash.bytes.bytes]
  | .activationTickets response =>
    [[1], response.sessionHash.bytes.bytes, Codec.leBytes 4 response.tickets.length] ++
      ticketParts (response.tickets.map Ticket.codec.encode)

def body (frame : FetchFrame) : Bytes := frame.parts.flatten

theorem length_ticketParts (tickets : List Bytes) :
    (ticketParts tickets).flatten.length = ((tickets.map List.length).map (4 + ·)).sum := by
  induction tickets with
  | nil => rfl
  | cons ticket tickets ih =>
    rw [ticketParts, List.flatMap_cons, ← ticketParts, List.flatten_append, List.length_append, ih]
    simp

theorem length_body_response {response : ActivationTickets}
    (h : response.tickets.length ≤ maxFetchTickets) :
    (body (.activationTickets response)).length = responseBodyLen response.ticketLens := by
  have hhash := response.sessionHash.bytes.length_eq
  have hlens : response.ticketLens =
      (response.tickets.map Ticket.codec.encode).map List.length := by
    rw [List.map_map]
    rfl
  rw [response.responseBodyLen_ticketLens h, body, parts, List.flatten_append, List.length_append,
    length_ticketParts, hlens]
  simp [hhash]

variable {frame : FetchFrame}

theorem length_body_le (h : frame.validate = .ok ()) :
    frame.body.length ≤ maxFetchResponseBytes := by
  have hbytes : maxFetchResponseBytes = 32768 := rfl
  cases frame with
  | fetchActivationTickets sessionHash =>
    have hhash := sessionHash.bytes.length_eq
    simp only [body, parts, List.flatten_cons, List.flatten_nil, List.append_nil,
      List.length_append, List.length_singleton, hhash]
    omega
  | activationTickets response =>
    have hcount := (ActivationTickets.validate_eq_ok.1 h).1
    have hsum := response.sum_ticketLens_le
    have hmax : maxFetchTickets = 64 := rfl
    rw [length_body_response hcount, response.responseBodyLen_ticketLens hcount]
    omega

section

variable {m : Type → Type} [Monad m] [LawfulMonad m] [MonadExceptOf StreamError m]
  {write : Bytes → m Unit}

theorem writeTickets_eq {tickets : List Bytes}
    (h : ∀ ticket ∈ tickets, ticket.length ≤ maxFetchTicketBytes) :
    serialize.writeTickets write tickets = writeAll write (ticketParts tickets) := by
  induction tickets with
  | nil => rfl
  | cons ticket tickets ih =>
    rw [serialize.writeTickets, writeBoundedBytes_eq (h ticket List.mem_cons_self) (by decide),
      ih fun t ht => h t (List.mem_cons_of_mem _ ht)]
    exact (writeAll_append _ _).symm

theorem length_encoded_tickets_le (tickets : List Ticket) :
    ∀ ticket ∈ tickets.map Ticket.codec.encode, ticket.length ≤ maxFetchTicketBytes := by
  intro ticket hticket
  obtain ⟨t, -, rfl⟩ := List.mem_map.1 hticket
  exact t.within.length_le.trans (by decide)

theorem serialize_eq {frame : FetchFrame} (h : frame.validate = .ok ()) :
    frame.serialize write = writeAll write frame.parts := by
  cases frame with
  | fetchActivationTickets sessionHash =>
    rw [serialize, parts, writeAll, writeAll, writeAll, bind_pure_unit]
  | activationTickets response =>
    have hvalidate : response.validate = .ok () := h
    obtain ⟨hcount, -⟩ := ActivationTickets.validate_eq_ok.1 hvalidate
    have htickets := length_encoded_tickets_le response.tickets
    have hlength : (response.tickets.map Ticket.codec.encode).length ≤ maxFetchTickets := by
      rwa [List.length_map]
    have hok : check (m := m) (response.validate.mapError FetchError.toStream) = pure () := by
      rw [hvalidate]
      rfl
    rw [serialize, checkCollectionLen, check_ensure hcount, pure_bind, hok, pure_bind]
    dsimp only
    rw [writeCollectionLen_eq hlength (by decide), writeTickets_eq htickets, parts,
      writeAll_append, writeAll, writeAll, writeAll, writeAll, List.length_map]
    simp only [bind_assoc, pure_bind]

end

theorem serialize_error {σ : Type} (h : frame.validate ≠ .ok ()) (write : Bytes → Writing σ Unit) :
    ∃ error, frame.serialize write = throw error := by
  cases frame with
  | fetchActivationTickets sessionHash => exact absurd rfl h
  | activationTickets response =>
    rw [serialize]
    by_cases hcount : response.tickets.length ≤ maxFetchTickets
    · rw [checkCollectionLen, check_ensure hcount, pure_bind]
      change response.validate ≠ .ok () at h
      cases hvalidate : response.validate with
      | ok u => exact absurd hvalidate h
      | error error => exact ⟨error.toStream, rfl⟩
    · rw [checkCollectionLen, ensure, if_neg hcount]
      exact ⟨_, rfl⟩

variable {bytes : Bytes}

theorem toVec_eq_ok :
    toVec frame.serialize = .ok bytes ↔ frame.validate = .ok () ∧ frame.body = bytes := by
  by_cases h : frame.validate = .ok ()
  · rw [toVec, serialize_eq h, run_writeAll_vecWrite]
    simp [h, body]
  · obtain ⟨error, herror⟩ := serialize_error h vecWrite
    rw [toVec, herror]
    exact ⟨nofun, fun hv => absurd hv.1 h⟩

variable {rest : Bytes}

theorem readBoundedBytes_iff {ticket : Bytes} {max : ℕ} {name : String} (hmax : max < 256 ^ 4) :
    readBoundedBytes bytes max name = .ok (ticket, rest) ↔
      ticket.length ≤ max ∧ bytes = Codec.leBytes 4 ticket.length ++ ticket ++ rest := by
  rw [readBoundedBytes_eq_ok hmax]
  constructor
  · intro h
    obtain ⟨hbytes, hvalid⟩ := Codec.canonical_byteVec max hmax _ _ _ h
    exact ⟨of_decide_eq_true hvalid, hbytes⟩
  · rintro ⟨hle, rfl⟩
    exact (Codec.byteVec max hmax).decode_encode ticket rest (decide_eq_true hle)

theorem readTickets_iff {count : ℕ} {tickets : List Bytes} :
    readTickets count bytes = .ok (tickets, rest) ↔ tickets.length = count ∧
      (∀ ticket ∈ tickets, ticket.length ≤ maxFetchTicketBytes) ∧
      bytes = (ticketParts tickets).flatten ++ rest := by
  induction count generalizing bytes tickets with
  | zero =>
    simp only [readTickets, Except.ok.injEq, Prod.mk.injEq]
    constructor
    · rintro ⟨rfl, rfl⟩
      exact ⟨rfl, List.forall_mem_nil _, rfl⟩
    · rintro ⟨hlength, -, rfl⟩
      rw [List.length_eq_zero_iff.1 hlength]
      exact ⟨rfl, rfl⟩
  | succ count ih =>
    simp only [readTickets, bind_eq_ok, mapError_eq_ok, pure_eq_ok, Prod.exists, Prod.mk.injEq]
    constructor
    · rintro ⟨ticket, mid, hticket, tickets', rest', htickets, rfl, rfl⟩
      obtain ⟨hle, rfl⟩ := (readBoundedBytes_iff (by decide)).1 hticket
      obtain ⟨rfl, hall, rfl⟩ := ih.1 htickets
      refine ⟨rfl, List.forall_mem_cons.2 ⟨hle, hall⟩, ?_⟩
      simp [ticketParts]
    · rintro ⟨hlength, hall, rfl⟩
      obtain ⟨ticket, tickets, rfl⟩ := List.exists_cons_of_length_eq_add_one hlength
      obtain ⟨hle, hall⟩ := List.forall_mem_cons.1 hall
      refine ⟨ticket, _, (readBoundedBytes_iff (by decide)).2 ⟨hle, ?_⟩, tickets, rest,
        ih.2 ⟨Nat.succ.inj hlength, hall, rfl⟩, rfl, rfl⟩
      simp [ticketParts]

theorem decodeTickets_iff {encoded : List Bytes} {tickets : List Ticket} :
    decodeTickets encoded = .ok tickets ↔
      (∀ t ∈ tickets, t.validate = .ok ()) ∧ encoded = tickets.map Ticket.codec.encode := by
  induction encoded generalizing tickets with
  | nil =>
    constructor
    · intro h
      cases h
      exact ⟨List.forall_mem_nil _, rfl⟩
    · rintro ⟨-, h⟩
      rw [List.map_eq_nil_iff.1 h.symm]
      rfl
  | cons bytes encoded ih =>
    simp only [decodeTickets, bind_eq_ok, mapError_eq_ok, pure_eq_ok, Ticket.decode_eq_ok]
    constructor
    · rintro ⟨t, ⟨hvalid, rfl⟩, tickets', htickets, rfl⟩
      obtain ⟨hall, rfl⟩ := ih.1 htickets
      exact ⟨List.forall_mem_cons.2 ⟨hvalid, hall⟩, rfl⟩
    · rintro ⟨hall, h⟩
      obtain ⟨t, tickets', rfl, rfl, rfl⟩ := List.map_eq_cons_iff.1 h.symm
      obtain ⟨hvalid, hall⟩ := List.forall_mem_cons.1 hall
      exact ⟨t, ⟨hvalid, rfl⟩, tickets', ih.2 ⟨hall, rfl⟩, rfl⟩

theorem idDecode_iff {k : IdKind} {id : Id k} :
    Id.codec.decode bytes = some (id, rest) ↔ bytes = id.bytes.bytes ++ rest := by
  constructor
  · exact fun h => (Id.canonical_codec _ _ _ h).1
  · rintro rfl
    exact Id.codec.decode_encode id rest rfl

theorem readCollectionLen_iff {count max : ℕ} {name : String} (hmax : max < 256 ^ 4) :
    readCollectionLen bytes max name = .ok (count, rest) ↔
      count ≤ max ∧ bytes = Codec.leBytes 4 count ++ rest := by
  simp only [readCollectionLen, bind_eq_ok, okOr_eq_ok, ensure_eq_ok, pure_eq_ok, Prod.exists,
    Prod.mk.injEq]
  constructor
  · rintro ⟨count, rest, hread, _, hle, rfl, rfl⟩
    exact ⟨hle, (Codec.canonical_le 4 _ _ _ hread).1⟩
  · rintro ⟨hle, rfl⟩
    exact ⟨count, rest, (Codec.le 4).decode_encode count rest (decide_eq_true (by omega)), (), hle,
      rfl, rfl⟩

/-- The reader accepts the bytes of the frames that validate, and no others. -/
theorem deserialize_iff :
    deserialize bytes = .ok (frame, rest) ↔
      frame.validate = .ok () ∧ bytes = frame.body ++ rest := by
  constructor
  · intro h
    cases bytes with
    | nil => cases h
    | cons tag tail =>
      simp only [deserialize] at h
      split at h
      next htag =>
        simp only [bind_eq_ok, okOr_eq_ok, pure_eq_ok, Prod.exists, Prod.mk.injEq] at h
        obtain ⟨hash, rest', hhash, rfl, rfl⟩ := h
        obtain rfl := idDecode_iff.1 hhash
        obtain rfl : tag = 0 := UInt8.toNat_inj.1 htag
        exact ⟨rfl, by simp [body, parts]⟩
      next htag =>
        simp only [bind_eq_ok, okOr_eq_ok, mapError_eq_ok, pure_eq_ok, Prod.exists,
          Prod.mk.injEq] at h
        obtain ⟨hash, r1, hhash, count, r2, hcount, encoded, r3, hencoded, _, -, tickets, htickets,
          _, hvalidate, rfl, rfl⟩ := h
        obtain rfl := idDecode_iff.1 hhash
        obtain ⟨-, rfl⟩ := (readCollectionLen_iff (by decide)).1 hcount
        obtain ⟨rfl, -, rfl⟩ := readTickets_iff.1 hencoded
        obtain ⟨-, rfl⟩ := decodeTickets_iff.1 htickets
        obtain rfl : tag = 1 := UInt8.toNat_inj.1 htag
        exact ⟨hvalidate, by simp [body, parts]⟩
      · cases h
  · rintro ⟨hvalidate, rfl⟩
    cases frame with
    | fetchActivationTickets hash =>
      change deserialize (0 :: (hash.bytes.bytes ++ [] ++ rest)) = _
      rw [List.append_nil, deserialize]
      change (okOr (Id.codec.decode (hash.bytes.bytes ++ rest)) _ >>= _) = _
      rw [idDecode_iff.2 rfl]
      rfl
    | activationTickets response =>
      have hresponse : response.validate = .ok () := hvalidate
      obtain ⟨hcount, hall⟩ := ActivationTickets.validate_eq_ok.1 hresponse
      have hbody : body (.activationTickets response) ++ rest =
          1 :: (response.sessionHash.bytes.bytes ++ (Codec.leBytes 4 response.tickets.length ++
            ((ticketParts (response.tickets.map Ticket.codec.encode)).flatten ++ rest))) := by
        simp [body, parts]
      have htickets := length_encoded_tickets_le response.tickets
      have hlen : responseBodyLen
          ((response.tickets.map Ticket.codec.encode).map List.length) ≤ maxFetchResponseBytes := by
        have hle := length_body_le hvalidate
        rw [length_body_response hcount] at hle
        rw [List.map_map]
        exact hle
      rw [hbody, deserialize]
      change (okOr (Id.codec.decode _) _ >>= _) = _
      simp only [bind_eq_ok, okOr_eq_ok, mapError_eq_ok, pure_eq_ok, Prod.exists, Prod.mk.injEq]
      refine ⟨_, _, idDecode_iff.2 rfl, _, _, (readCollectionLen_iff (by decide)).2 ⟨hcount, rfl⟩,
        _, _, readTickets_iff.2 ⟨List.length_map _, htickets, rfl⟩, (), ?_, _,
        decodeTickets_iff.2 ⟨hall, rfl⟩, (), hresponse, rfl, rfl⟩
      rw [checkResponseLen, ensure_eq_ok]
      exact hlen

end FetchFrame

/-! ## The codec of fetch frames -/

namespace WireCodec

variable (codec : WireCodec)

def encodeFetch (frame : FetchFrame) : Except WireError Bytes :=
  codec.encode frame.serialize

def decodeFetch (bytes : Bytes) : Except WireError FetchFrame :=
  codec.decode FetchFrame.deserialize bytes

variable {codec} {frame : FetchFrame} {bytes : Bytes}

theorem encodeFetch_eq_ok :
    codec.encodeFetch frame = .ok bytes ↔ frame.validate = .ok () ∧
      frame.body.length ≤ codec.maxSize ∧ envelope frame.body = bytes := by
  by_cases h : frame.validate = .ok ()
  · have hle := FetchFrame.length_body_le h
    have hmax : maxFetchResponseBytes = 32768 := rfl
    have hversion : frameVersionSize = 2 := rfl
    rw [encodeFetch, encode_eq_ok (FetchFrame.serialize_eq h)]
    constructor
    · rintro ⟨hsize, -, hout⟩
      exact ⟨h, hsize, hout⟩
    · rintro ⟨-, hsize, hout⟩
      exact ⟨hsize, lt_of_le_of_lt (Nat.add_le_add_right hle _) (by decide), hout⟩
  · obtain ⟨error, herror⟩ := FetchFrame.serialize_error h BoundedWriter.write
    exact ⟨fun hout => absurd hout (encode_error herror bytes), fun hv => absurd hv.1 h⟩

theorem decodeFetch_eq_ok :
    codec.decodeFetch bytes = .ok frame ↔ frame.validate = .ok () ∧
      frame.body.length ≤ codec.maxSize ∧ bytes = envelope frame.body := by
  simp only [decodeFetch, decode_eq_ok, decodeFrame_eq_ok, FetchFrame.deserialize_iff,
    List.append_nil]
  constructor
  · rintro ⟨_, ⟨hsize, -, rfl⟩, hvalidate, rfl⟩
    exact ⟨hvalidate, hsize, rfl⟩
  · rintro ⟨hvalidate, hsize, rfl⟩
    have hle := FetchFrame.length_body_le hvalidate
    exact ⟨_, ⟨hsize, lt_of_le_of_lt (Nat.add_le_add_right hle _) (by decide), rfl⟩, hvalidate, rfl⟩

theorem shape_of_decodeFetch (h : codec.decodeFetch bytes = .ok frame) :
    bytes.length = frameHeaderSize + Codec.leNat (bytes.take frameHeaderSize) ∧
      (bytes.drop frameHeaderSize).take frameVersionSize = Codec.leBytes 2 frameVersion := by
  obtain ⟨hvalidate, -, rfl⟩ := decodeFetch_eq_ok.1 h
  have hle := FetchFrame.length_body_le hvalidate
  refine ⟨?_, take_drop_envelope _⟩
  rw [take_envelope, Codec.leNat_leBytes 4 _
    (lt_of_le_of_lt (Nat.add_le_add_right hle _) (by decide)), length_envelope]

end WireCodec

theorem PreparedActivation.ticket_validate {κ : Primitives} (p : PreparedActivation κ) {t : Ticket}
    (ht : t ∈ p.tickets) : t.validate = .ok () := by
  have h := p.activationData_eq
  simp only [activationDataFor, bind_eq_ok, forAll_eq_ok, checkTicketAuthentic,
    mapError_eq_ok] at h
  obtain ⟨_, -, _, -, _, -, _, -, _, -, _, -, _, -, _, -, _, hauthentic, -⟩ := h
  have hverify := hauthentic t ht
  simp only [Ticket.verifyForOffer, bind_eq_ok, mapError_eq_ok] at hverify
  obtain ⟨_, hvalidate, -⟩ := hverify
  exact hvalidate

/-- The creator's response to a fetch: the frozen tickets of an activation. -/
def Activation.fetchResponse {κ : Primitives} (a : Activation κ) : FetchFrame :=
  .activationTickets ⟨a.sessionHash, a.tickets⟩

open WireCodec in
/-- Fetch frames round-trip in both directions.  The predicted size of a response is the size of
its body; the codec writes exactly the frames that validate and fit, and reads them back; the
frozen tickets of every activation fit the largest response; and accepted bytes are what
the writer writes, so that no prefix, no extension, no other length and no other version of
them is accepted. -/
theorem fetch_frames_round_trip (codec : WireCodec) :
    (∀ response body, toVec (FetchFrame.serialize (.activationTickets response)) = .ok body →
      responseBodyLen (response.tickets.map fun t => (Ticket.codec.encode t).length) =
        body.length) ∧
    (∀ frame : FetchFrame, (∃ bytes, codec.encodeFetch frame = .ok bytes) ↔
      frame.validate = .ok () ∧
        ∃ body, toVec frame.serialize = .ok body ∧ body.length ≤ codec.maxSize) ∧
    (∀ frame bytes, codec.encodeFetch frame = .ok bytes → codec.decodeFetch bytes = .ok frame) ∧
    (∀ (κ : Primitives) (a : Activation κ), ∃ bytes,
      (WireCodec.mk maxFetchResponseBytes).encodeFetch a.fetchResponse = .ok bytes) ∧
    (∀ bytes frame, codec.decodeFetch bytes = .ok frame →
      codec.encodeFetch frame = .ok bytes ∧
      ∀ frame', (∀ k < bytes.length, codec.decodeFetch (bytes.take k) ≠ .ok frame') ∧
        (∀ extension, extension ≠ [] → codec.decodeFetch (bytes ++ extension) ≠ .ok frame') ∧
        (∀ header, header.length = frameHeaderSize → header ≠ bytes.take frameHeaderSize →
          codec.decodeFetch (header ++ bytes.drop frameHeaderSize) ≠ .ok frame') ∧
        ∀ version, version.length = frameVersionSize →
          version ≠ (bytes.drop frameHeaderSize).take frameVersionSize →
          codec.decodeFetch (bytes.take frameHeaderSize ++
            (version ++ bytes.drop (frameHeaderSize + frameVersionSize))) ≠ .ok frame') := by
  refine ⟨?_, ?_, ?_, ?_, ?_⟩
  · intro response body h
    obtain ⟨hvalidate, rfl⟩ := FetchFrame.toVec_eq_ok.1 h
    exact (FetchFrame.length_body_response (ActivationTickets.validate_eq_ok.1 hvalidate).1).symm
  · intro frame
    simp only [encodeFetch_eq_ok, FetchFrame.toVec_eq_ok]
    constructor
    · rintro ⟨_, hvalidate, hsize, -⟩
      exact ⟨hvalidate, _, ⟨hvalidate, rfl⟩, hsize⟩
    · rintro ⟨hvalidate, _, ⟨-, rfl⟩, hsize⟩
      exact ⟨_, hvalidate, hsize, rfl⟩
  · intro frame bytes h
    obtain ⟨hvalidate, hsize, rfl⟩ := encodeFetch_eq_ok.1 h
    exact decodeFetch_eq_ok.2 ⟨hvalidate, hsize, rfl⟩
  · intro κ a
    have hvalidate : a.fetchResponse.validate = .ok () :=
      ActivationTickets.validate_eq_ok.2
        ⟨a.prepared.ticketSet.bounds.2, fun t ht => a.prepared.ticket_validate ht⟩
    exact ⟨_, encodeFetch_eq_ok.2 ⟨hvalidate, FetchFrame.length_body_le hvalidate, rfl⟩⟩
  · intro bytes frame h
    obtain ⟨hlength, hversion⟩ := shape_of_decodeFetch h
    have hheader : frameHeaderSize ≤ bytes.length := by omega
    refine ⟨?_, fun frame' => ⟨fun k hk h' => ?_, fun extension hne h' => ?_,
      fun header hsize hne h' => ?_, fun version hsize hne h' => ?_⟩⟩
    · obtain ⟨hvalidate, hsize, rfl⟩ := decodeFetch_eq_ok.1 h
      exact encodeFetch_eq_ok.2 ⟨hvalidate, hsize, rfl⟩
    -- a header that is cut off or kept fixes the length
    · obtain ⟨hlength', -⟩ := shape_of_decodeFetch h'
      rw [List.length_take_of_le hk.le] at hlength'
      rw [List.take_take, Nat.min_eq_left (by omega)] at hlength'
      omega
    · obtain ⟨hlength', -⟩ := shape_of_decodeFetch h'
      rw [List.take_append_of_le_length hheader, List.length_append] at hlength'
      have hpos := List.length_pos_iff.2 hne
      omega
    · obtain ⟨hlength', -⟩ := shape_of_decodeFetch h'
      rw [List.take_left' hsize, List.length_append, List.length_drop, hsize] at hlength'
      have htake : (bytes.take frameHeaderSize).length = frameHeaderSize :=
        List.length_take_of_le hheader
      have hnat : Codec.leNat header = Codec.leNat (bytes.take frameHeaderSize) := by omega
      have hback := Codec.leBytes_leNat (bytes.take frameHeaderSize)
      rw [htake] at hback
      apply hne
      rw [← Codec.leBytes_leNat header, hsize, hnat, hback]
    · obtain ⟨-, hversion'⟩ := shape_of_decodeFetch h'
      rw [List.drop_left' (List.length_take_of_le hheader), List.take_left' hsize] at hversion'
      exact hne (hversion'.trans hversion.symm)

end Arena0
