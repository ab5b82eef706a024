import Arena0.Announcements
import Arena0.LastWriter
import Arena0.Sandbox

/-!
# Negotiation books

A book keeps one current ticket per signer and offer, and one counteroffer per signer
and negotiation.  Both are last-writer-wins maps: what the book returns depends on which
tickets and counteroffers it has seen, not on their order or number.
-/

namespace Arena0

open Borsh Fallible
open Sandbox (saturatingAdd)

def maxHeads : ℕ := 64
def maxOffersPerNegotiation : ℕ := 16
def maxClockSkewMs : UInt64 := 5000

inductive ApplyOutcome where
  | inserted
  | replaced
  | duplicate
  | stale
  deriving DecidableEq

inductive ApplyError where
  | unknownOffer (negotiationId : NegotiationId) (offerSeq : UInt64)
  | unknownNegotiation (negotiationId : NegotiationId)
  | staleRevision (revision currentRevision : UInt64)
  | capacity (max : ℕ)
  | offerHashConflict (negotiationId : NegotiationId) (offerSeq : UInt64)
  | invalidTicket (message : String)
  | invalidCounteroffer (message : String)
  | counterofferOutOfTime (issuedAt now validFor : UInt64)
  | counterofferCapacity (max : ℕ)
  | offerSlotMismatch
  | offerCapacity (max : ℕ)
  deriving DecidableEq

/-- One offer slot; a ticket stands under its signer. -/
structure OfferBook where
  offerHash : OfferHash
  creator : PeerId
  tickets : OrdMap PeerId Ticket
  keyed : ∀ k t, tickets.get? k = some t → t.data.signer = k

/-- Every offer slot of a negotiation, and its counteroffers: each passed its checks and stands
under its signer. -/
structure NegotiationState where
  offers : OrdMap ℕ OfferBook
  counteroffers : OrdMap PeerId Counteroffer
  checked : ∀ k c, counteroffers.get? k = some c → c.data.signer = k ∧ c.validate = .ok ()

structure NegotiationBook where
  negotiations : OrdMap NegotiationId NegotiationState

namespace OfferBook

def new (offerHash : OfferHash) (creator : PeerId) : OfferBook :=
  ⟨offerHash, creator, OrdMap.empty, fun _ _ h => (nomatch h)⟩

def put (o : OfferBook) (t : Ticket) : OfferBook :=
  { o with
    tickets := o.tickets.insert t.data.signer t
    keyed := OrdMap.forall_insert (fun k u _ hu => o.keyed k u hu) rfl }

def place (o : OfferBook) (t : Ticket) : Except ApplyError ApplyOutcome × OfferBook :=
  match o.tickets.get? t.data.signer with
  | none =>
    if maxHeads ≤ o.tickets.size then (.error (.capacity maxHeads), o)
    else (.ok .inserted, o.put t)
  | some current =>
    if current.data.revision = t.data.revision then (.ok .duplicate, o)
    else if t.data.revision < current.data.revision then
      (.error (.staleRevision t.data.revision current.data.revision), o)
    else (.ok .replaced, o.put t)

end OfferBook

/-- Whether a counteroffer is expired as of `nowMs`. -/
def expired (c : Counteroffer) (nowMs : UInt64) : Bool :=
  decide (saturatingAdd c.data.issuedAtUnixMs c.data.validForMs.toUInt64 < nowMs)

namespace NegotiationState

def empty : NegotiationState := ⟨OrdMap.empty, OrdMap.empty, fun _ _ h => (nomatch h)⟩

def setOffer (st : NegotiationState) (offerSeq : UInt64) (o : OfferBook) : NegotiationState :=
  { st with offers := st.offers.insert offerSeq.toNat o }

def prune (st : NegotiationState) (nowMs : UInt64) : NegotiationState :=
  { st with
    counteroffers := st.counteroffers.retain fun c => !expired c nowMs
    checked := fun k c h => st.checked k c (OrdMap.get?_retain.1 h |>.1) }

def put (st : NegotiationState) (c : Counteroffer) (h : c.validate = .ok ()) : NegotiationState :=
  { st with
    counteroffers := st.counteroffers.insert c.data.signer c
    checked := OrdMap.forall_insert (fun k d _ hd => st.checked k d hd) ⟨rfl, h⟩ }

end NegotiationState

/-! ## The operations -/

variable (κ : Primitives)

/-- The checks of a counteroffer as of `nowMs`, before the book looks at its own state. -/
def checkCounteroffer (c : Counteroffer) (nowMs : UInt64) : Except ApplyError Unit := do
  c.validate.mapError fun error => .invalidCounteroffer (toString error)
  let identity ← (c.verifyIdentity κ).mapError fun error => .invalidCounteroffer (toString error)
  ensure (identity = true) (.invalidCounteroffer "identity signature mismatch")
  ensure (¬ (saturatingAdd nowMs maxClockSkewMs < c.data.issuedAtUnixMs ∨ expired c nowMs = true))
    (.counterofferOutOfTime c.data.issuedAtUnixMs nowMs c.data.validForMs.toUInt64)

variable {nowMs : UInt64}

theorem checkCounteroffer_eq_ok {c : Counteroffer} :
    checkCounteroffer κ c nowMs = .ok () ↔ c.validate = .ok () ∧ c.verifyIdentity κ = .ok true ∧
      c.data.issuedAtUnixMs ≤ saturatingAdd nowMs maxClockSkewMs ∧ expired c nowMs = false := by
  simp [checkCounteroffer, bind_eq_ok, ensure_eq_ok, mapError_eq_ok]

namespace NegotiationState

/-- Place a checked counteroffer under its signer: the later issue time stands, and of two of one
time the one with the lower hash. -/
def place (st : NegotiationState) (c : Counteroffer) (h : c.validate = .ok ()) :
    Except ApplyError ApplyOutcome × NegotiationState :=
  match st.counteroffers.get? c.data.signer with
  | none =>
    if maxHeads ≤ st.counteroffers.size then (.error (.counterofferCapacity maxHeads), st)
    else (.ok .inserted, st.put c h)
  | some current =>
    if c.data.issuedAtUnixMs < current.data.issuedAtUnixMs then (.ok .stale, st)
    else if current.data.issuedAtUnixMs = c.data.issuedAtUnixMs ∧
        CounterofferHash.of κ c.data = CounterofferHash.of κ current.data then (.ok .duplicate, st)
    else if current.data.issuedAtUnixMs = c.data.issuedAtUnixMs ∧
        CounterofferHash.of κ current.data < CounterofferHash.of κ c.data then (.ok .stale, st)
    else (.ok .replaced, st.put c h)

end NegotiationState

namespace NegotiationBook

def new : NegotiationBook := ⟨OrdMap.empty⟩

def offerBook (b : NegotiationBook) (negotiationId : NegotiationId) (offerSeq : UInt64) :
    Option OfferBook :=
  (b.negotiations.get? negotiationId).bind fun st => st.offers.get? offerSeq.toNat

def setState (b : NegotiationBook) (negotiationId : NegotiationId) (st : NegotiationState) :
    NegotiationBook :=
  ⟨b.negotiations.insert negotiationId st⟩

def setOffer (b : NegotiationBook) (negotiationId : NegotiationId) (offerSeq : UInt64)
    (o : OfferBook) : NegotiationBook :=
  match b.negotiations.get? negotiationId with
  | none => b
  | some st => b.setState negotiationId (st.setOffer offerSeq o)

variable {κ} in
/-- Register an offer under its slot.  The negotiation is entered before the capacity is
checked. -/
def registerOffer (b : NegotiationBook) (negotiationId : NegotiationId) (offerSeq : UInt64)
    (offer : Offer κ) : Except ApplyError Unit × NegotiationBook :=
  if offer.data.negotiationId ≠ negotiationId ∨ offer.data.offerSeq ≠ offerSeq then
    (.error .offerSlotMismatch, b)
  else
    let st := (b.negotiations.get? negotiationId).getD .empty
    match st.offers.get? offerSeq.toNat with
    | none =>
      if maxOffersPerNegotiation ≤ st.offers.size then
        (.error (.offerCapacity maxOffersPerNegotiation), b.setState negotiationId st)
      else
        (.ok (), b.setState negotiationId
          (st.setOffer offerSeq (.new (OfferHash.of offer.data) offer.data.creator)))
    | some o =>
      if o.offerHash = OfferHash.of offer.data then (.ok (), b.setState negotiationId st)
      else (.error (.offerHashConflict negotiationId offerSeq), b.setState negotiationId st)

def applyTicket (b : NegotiationBook) (t : Ticket) :
    Except ApplyError ApplyOutcome × NegotiationBook :=
  match t.validate with
  | .error error => (.error (.invalidTicket (toString error)), b)
  | .ok () =>
    match b.offerBook t.data.negotiationId t.data.offerSeq with
    | none => (.error (.unknownOffer t.data.negotiationId t.data.offerSeq), b)
    | some o =>
      match t.verifyForOffer κ o.offerHash with
      | .error error => (.error (.invalidTicket (toString error)), b)
      | .ok () =>
        ((o.place t).1, b.setOffer t.data.negotiationId t.data.offerSeq (o.place t).2)

/-- Apply one inbound counteroffer as of `nowMs`. -/
def applyCounteroffer (b : NegotiationBook) (c : Counteroffer) (nowMs : UInt64) :
    Except ApplyError ApplyOutcome × NegotiationBook :=
  match h : checkCounteroffer κ c nowMs with
  | .error error => (.error error, b)
  | .ok () =>
    match b.negotiations.get? c.data.negotiationId with
    | none => (.error (.unknownNegotiation c.data.negotiationId), b)
    | some st =>
      let placed := (st.prune nowMs).place κ c ((checkCounteroffer_eq_ok κ).1 h).1
      (placed.1, b.setState c.data.negotiationId placed.2)

def applyTickets (b : NegotiationBook) (l : List Ticket) : NegotiationBook :=
  l.foldl (fun b t => (b.applyTicket κ t).2) b

def applyCounteroffers (b : NegotiationBook) (l : List Counteroffer) (nowMs : UInt64) :
    NegotiationBook :=
  l.foldl (fun b c => (b.applyCounteroffer κ c nowMs).2) b

end NegotiationBook

/-! ## What a book returns -/

def TicketAction.isActive : TicketAction → Bool
  | .active .. => true
  | .withdrawn => false

/-- The place of a ticket in a ticket set: the creator's first, then by signer. -/
def OfferBook.sortKey (o : OfferBook) (t : Ticket) : Bool ×ₗ PeerId :=
  toLex (decide (t.data.signer ≠ o.creator), t.data.signer)

namespace NegotiationBook

def ticketSet (b : NegotiationBook) (negotiationId : NegotiationId) (offerSeq : UInt64) :
    List Ticket :=
  match b.offerBook negotiationId offerSeq with
  | none => []
  | some o =>
    (o.tickets.values.filter fun t => t.data.action.isActive).insertionSort
      fun t u => o.sortKey t ≤ o.sortKey u

/-- The unexpired counteroffers of one negotiation as of `nowMs`. -/
def validCounteroffers (b : NegotiationBook) (negotiationId : NegotiationId) (nowMs : UInt64) :
    List Counteroffer :=
  match b.negotiations.get? negotiationId with
  | none => []
  | some st =>
    (st.counteroffers.values.filter fun c => !expired c nowMs).insertionSort
      fun c d => c.data.signer ≤ d.data.signer

end NegotiationBook

/-! ## Tickets -/

theorem pairwise_lt_insertionSort {α β : Type} [LinearOrder β] {f : α → β} {l : List α}
    (h : l.Pairwise fun a b => f a ≠ f b) :
    (l.insertionSort fun a b => f a ≤ f b).Pairwise fun a b => f a < f b := by
  have hle := List.pairwise_insertionSort (fun a b : α => f a ≤ f b) l
  have hne := ((List.perm_insertionSort (fun a b : α => f a ≤ f b) l).pairwise_iff
    fun hab => hab.symm).2 h
  exact (hle.and hne).imp fun hab => lt_of_le_of_ne hab.1 hab.2

variable {o : OfferBook}

theorem OfferBook.sortKey_lt {t u : Ticket} :
    o.sortKey t < o.sortKey u ↔
      u.data.signer ≠ o.creator ∧ (t.data.signer = o.creator ∨ t.data.signer < u.data.signer) := by
  rw [sortKey, sortKey, Prod.Lex.toLex_lt_toLex]
  by_cases ht : t.data.signer = o.creator <;> by_cases hu : u.data.signer = o.creator <;>
    simp [ht, hu]

namespace OfferBook

variable {κ} {o : OfferBook} {t : Ticket}

theorem place_tickets : (o.place t).2.tickets =
    LastWriter.apply (·.data.signer) (·.data.revision.toNat) maxHeads o.tickets t := by
  rw [place, LastWriter.apply]
  cases o.tickets.get? t.data.signer with
  | none => dsimp only; split <;> rfl
  | some current =>
    dsimp only
    by_cases heq : current.data.revision = t.data.revision
    · rw [if_pos heq, if_neg (by rw [heq]; exact lt_irrefl _)]
    · rw [if_neg heq]
      by_cases hlt : t.data.revision < current.data.revision
      · rw [if_pos hlt, if_neg (UInt64.lt_iff_toNat_lt.1 hlt).not_gt]
      · have hne : current.data.revision.toNat ≠ t.data.revision.toNat :=
          fun h => heq (UInt64.toNat_inj.1 h)
        have hle := not_lt.1 (mt UInt64.lt_iff_toNat_lt.2 hlt)
        rw [if_neg hlt, if_pos (lt_of_le_of_ne hle hne)]
        rfl

theorem place_offerHash : (o.place t).2.offerHash = o.offerHash := by
  rw [place]
  split <;> repeat' split
  all_goals rfl

theorem place_creator : (o.place t).2.creator = o.creator := by
  rw [place]
  split <;> repeat' split
  all_goals rfl

variable (κ) in
/-- The tickets a slot has to choose from: the ones it holds and the valid ones of a list. -/
def candidates (o : OfferBook) (l : List Ticket) : List Ticket :=
  o.tickets.values ++ l.filter fun t => decide (t.verifyForOffer κ o.offerHash = .ok ())

end OfferBook

theorem Ticket.validate_of_verifyForOffer {κ : Primitives} {t : Ticket} {h : OfferHash}
    (hv : t.verifyForOffer κ h = .ok ()) : t.validate = .ok () := by
  rw [verifyForOffer] at hv
  simp only [bind_eq_ok, mapError_eq_ok] at hv
  exact hv.choose_spec.1

namespace NegotiationBook

variable {κ} {b : NegotiationBook} {negotiationId : NegotiationId} {offerSeq : UInt64}
  {o : OfferBook}

theorem offerBook_setOffer (o' : OfferBook) (h : b.offerBook negotiationId offerSeq = some o) :
    (b.setOffer negotiationId offerSeq o').offerBook negotiationId offerSeq = some o' := by
  obtain ⟨st, hst, -⟩ := Option.bind_eq_some_iff.1 h
  simp only [setOffer, hst, offerBook, setState, OrdMap.get?_insert_self, Option.bind_some,
    NegotiationState.setOffer]

theorem offerBook_applyTicket {t : Ticket}
    (h : b.offerBook t.data.negotiationId t.data.offerSeq = some o) :
    (b.applyTicket κ t).2.offerBook t.data.negotiationId t.data.offerSeq =
      some (if t.verifyForOffer κ o.offerHash = .ok () then (o.place t).2 else o) := by
  rw [applyTicket]
  cases hvalid : t.validate with
  | error e =>
    rw [if_neg fun hv => ?_]
    · exact h
    · rw [Ticket.validate_of_verifyForOffer hv] at hvalid
      cases hvalid
  | ok u =>
    dsimp only
    rw [h]
    dsimp only
    cases t.verifyForOffer κ o.offerHash with
    | error e => exact h
    | ok u => exact offerBook_setOffer _ h

/-- Applied tickets leave the valid ones, the last writer of each signer. -/
theorem offerBook_applyTickets {l : List Ticket} (h : b.offerBook negotiationId offerSeq = some o)
    (hl : ∀ t ∈ l, t.data.negotiationId = negotiationId ∧ t.data.offerSeq = offerSeq) :
    ∃ o', (b.applyTickets κ l).offerBook negotiationId offerSeq = some o' ∧
      o'.creator = o.creator ∧
      o'.tickets = LastWriter.applyAll (·.data.signer) (·.data.revision.toNat) maxHeads o.tickets
        (l.filter fun t => decide (t.verifyForOffer κ o.offerHash = .ok ())) := by
  induction l generalizing b o with
  | nil => exact ⟨o, h, rfl, rfl⟩
  | cons t l ih =>
    obtain ⟨hid, hseq⟩ := hl t List.mem_cons_self
    have hstep := offerBook_applyTicket (κ := κ) (b := b) (t := t) (o := o)
      (by rw [hid, hseq]; exact h)
    rw [hid, hseq] at hstep
    have hrest : ∀ u ∈ l, u.data.negotiationId = negotiationId ∧ u.data.offerSeq = offerSeq :=
      fun u hu => hl u (List.mem_cons_of_mem t hu)
    by_cases hv : t.verifyForOffer κ o.offerHash = .ok ()
    · rw [if_pos hv] at hstep
      obtain ⟨o', ho', hcreator, htickets⟩ := ih hstep hrest
      refine ⟨o', ho', hcreator.trans OfferBook.place_creator, ?_⟩
      rw [htickets, OfferBook.place_offerHash, OfferBook.place_tickets,
        List.filter_cons_of_pos (by simpa using hv)]
      rfl
    · rw [if_neg hv] at hstep
      obtain ⟨o', ho', hcreator, htickets⟩ := ih hstep hrest
      refine ⟨o', ho', hcreator, ?_⟩
      rw [htickets, List.filter_cons_of_neg (by simpa using hv)]

theorem mem_ticketSet (h : b.offerBook negotiationId offerSeq = some o) {t : Ticket} :
    t ∈ b.ticketSet negotiationId offerSeq ↔
      t.data.action.isActive = true ∧ o.tickets.get? t.data.signer = some t := by
  have hkey : (∃ k, o.tickets.get? k = some t) ↔ o.tickets.get? t.data.signer = some t := by
    refine ⟨?_, fun h => ⟨_, h⟩⟩
    rintro ⟨k, hk⟩
    rwa [o.keyed k t hk]
  rw [ticketSet, h]
  dsimp only
  rw [List.mem_insertionSort, List.mem_filter, OrdMap.mem_values, hkey, and_comm]

theorem ticketSet_sorted (h : b.offerBook negotiationId offerSeq = some o) :
    (b.ticketSet negotiationId offerSeq).Pairwise fun t u =>
      u.data.signer ≠ o.creator ∧ (t.data.signer = o.creator ∨ t.data.signer < u.data.signer) := by
  have hvalues := (OrdMap.pairwise_values o.keyed).filter fun t => t.data.action.isActive
  have hsorted := pairwise_lt_insertionSort (f := o.sortKey) <| hvalues.imp fun hlt heq =>
    hlt.ne (congrArg (fun k => (ofLex k).2) heq)
  rw [ticketSet, h]
  exact hsorted.imp fun hlt => OfferBook.sortKey_lt.1 hlt

end NegotiationBook

/-! ## Counteroffers -/

/-- Later counteroffers rank higher, and of two of one time the one with the lower hash. -/
def Counteroffer.rank (κ : Primitives) (c : Counteroffer) : ℕ ×ₗ (FixedBytes 32)ᵒᵈ :=
  toLex (c.data.issuedAtUnixMs.toNat, OrderDual.toDual (CounterofferHash.of κ c.data))

namespace Counteroffer

variable {κ} {c d : Counteroffer}

theorem rank_lt_rank : c.rank κ < d.rank κ ↔
    c.data.issuedAtUnixMs < d.data.issuedAtUnixMs ∨
      c.data.issuedAtUnixMs = d.data.issuedAtUnixMs ∧
        CounterofferHash.of κ d.data < CounterofferHash.of κ c.data := by
  rw [rank, rank, Prod.Lex.toLex_lt_toLex, UInt64.lt_iff_toNat_lt, ← UInt64.toNat_inj]
  rfl

theorem rank_le_rank : c.rank κ ≤ d.rank κ ↔
    c.data.issuedAtUnixMs < d.data.issuedAtUnixMs ∨
      c.data.issuedAtUnixMs = d.data.issuedAtUnixMs ∧
        CounterofferHash.of κ d.data ≤ CounterofferHash.of κ c.data := by
  rw [rank, rank, Prod.Lex.toLex_le_toLex, UInt64.lt_iff_toNat_lt, ← UInt64.toNat_inj]
  rfl

theorem data_eq_of_signingBytes (hc : c.validate = .ok ()) (hd : d.validate = .ok ())
    (h : c.data.signingBytes = d.data.signingBytes) : c.data = d.data := by
  have hvalid : ∀ {e : Counteroffer}, e.validate = .ok () →
      CounterofferData.codec.valid e.data = true := by
    intro e he
    simp only [validate, CounterofferData.validate, checkParamsLen, bind_eq_ok, ensure_eq_ok] at he
    obtain ⟨-, ⟨-, -, -, -, -, hparams, -⟩, -⟩ := he
    have hbound : e.data.params.length ≤ 256 ^ 4 - 1 := hparams.trans (by decide)
    simpa [CounterofferData.codec, Codec.u16, Codec.u32, Codec.u64, Codec.word] using hbound
  exact CounterofferData.codec.encode_inj (hvalid hc) (hvalid hd) h

end Counteroffer

variable {st : NegotiationState}

theorem NegotiationState.place_counteroffers {κ : Primitives} {c : Counteroffer}
    (h : c.validate = .ok ()) : (st.place κ c h).2.counteroffers =
      LastWriter.apply (·.data.signer) (Counteroffer.rank κ) maxHeads st.counteroffers c := by
  rw [place, LastWriter.apply]
  cases st.counteroffers.get? c.data.signer with
  | none => dsimp only; split <;> rfl
  | some current =>
    dsimp only
    simp only [Counteroffer.rank_lt_rank, UInt64.lt_iff_toNat_lt, ← UInt64.toNat_inj]
    rcases lt_trichotomy c.data.issuedAtUnixMs.toNat current.data.issuedAtUnixMs.toNat with
      htime | htime | htime
    · simp [htime, htime.not_gt, htime.ne']
    · -- of one time: the hashes decide
      rcases lt_trichotomy (CounterofferHash.of κ c.data) (CounterofferHash.of κ current.data) with
        hhash | hhash | hhash
      · simp [htime, hhash, hhash.ne, hhash.not_gt, put]
      · simp [htime, hhash]
      · simp [htime, hhash, hhash.ne', hhash.not_gt]
    · simp [htime, htime.not_gt, htime.ne, put]

namespace NegotiationBook

def admits (κ : Primitives) (negotiationId : NegotiationId) (nowMs : UInt64) (c : Counteroffer) :
    Bool :=
  decide (c.data.negotiationId = negotiationId ∧ checkCounteroffer κ c nowMs = .ok ())

def receive (κ : Primitives) (negotiationId : NegotiationId) (nowMs : UInt64)
    (m : OrdMap PeerId Counteroffer) (c : Counteroffer) : OrdMap PeerId Counteroffer :=
  if admits κ negotiationId nowMs c then
    LastWriter.apply (·.data.signer) (Counteroffer.rank κ) maxHeads
      (m.retain fun d => !expired d nowMs) c
  else m

variable {κ} {b : NegotiationBook} {negotiationId : NegotiationId} {nowMs : UInt64}
  {st : NegotiationState} {m : OrdMap PeerId Counteroffer} {c : Counteroffer}

theorem not_expired_of_admits (h : admits κ negotiationId nowMs c = true) :
    (!expired c nowMs) = true := by
  obtain ⟨-, hcheck⟩ := of_decide_eq_true h
  obtain ⟨-, -, -, hlive⟩ := (checkCounteroffer_eq_ok κ).1 hcheck
  rw [hlive]
  rfl

theorem state_applyCounteroffer (nowMs : UInt64) (h : b.negotiations.get? negotiationId = some st) :
    ∃ st', (b.applyCounteroffer κ c nowMs).2.negotiations.get? negotiationId = some st' ∧
      st'.counteroffers = receive κ negotiationId nowMs st.counteroffers c := by
  unfold applyCounteroffer receive admits
  split
  next error herror => exact ⟨st, h, by rw [herror]; simp⟩
  next hcheck =>
    by_cases hid : c.data.negotiationId = negotiationId
    · refine ⟨((st.prune nowMs).place κ c ((checkCounteroffer_eq_ok κ).1 hcheck).1).2, ?_, ?_⟩
      · rw [hid, h]
        exact OrdMap.get?_insert_self _ _ _
      · rw [if_pos (decide_eq_true ⟨hid, hcheck⟩), NegotiationState.place_counteroffers]
        rfl
    · refine ⟨st, ?_, by simp [hid]⟩
      split
      · exact h
      · exact (OrdMap.get?_insert_of_ne _ _ (Ne.symm hid)).trans h

variable {l : List Counteroffer}

theorem state_applyCounteroffers (nowMs : UInt64)
    (h : b.negotiations.get? negotiationId = some st) :
    ∃ st', (b.applyCounteroffers κ l nowMs).negotiations.get? negotiationId = some st' ∧
      st'.counteroffers = l.foldl (receive κ negotiationId nowMs) st.counteroffers := by
  induction l generalizing b st with
  | nil => exact ⟨st, h, rfl⟩
  | cons c l ih =>
    obtain ⟨st₁, hst₁, hfirst⟩ := state_applyCounteroffer (κ := κ) (c := c) nowMs h
    obtain ⟨st', hst', hrest⟩ := ih hst₁
    exact ⟨st', hst', by rw [hrest, hfirst, List.foldl_cons]⟩

theorem foldl_receive_of_live (h : ∀ k c, m.get? k = some c → (!expired c nowMs) = true) :
    l.foldl (receive κ negotiationId nowMs) m =
      LastWriter.applyAll (·.data.signer) (Counteroffer.rank κ) maxHeads m
        (l.filter (admits κ negotiationId nowMs)) := by
  induction l generalizing m with
  | nil => rfl
  | cons c l ih =>
    rw [List.foldl_cons, receive]
    by_cases hc : admits κ negotiationId nowMs c = true
    · rw [if_pos hc, OrdMap.retain_eq_self h, List.filter_cons_of_pos hc]
      exact ih (LastWriter.forall_apply _ _ _ h (not_expired_of_admits hc))
    · rw [if_neg hc, List.filter_cons_of_neg hc]
      exact ih h

theorem foldl_receive :
    l.foldl (receive κ negotiationId nowMs) m =
      if l.filter (admits κ negotiationId nowMs) = [] then m
      else LastWriter.applyAll (·.data.signer) (Counteroffer.rank κ) maxHeads
        (m.retain fun d => !expired d nowMs) (l.filter (admits κ negotiationId nowMs)) := by
  induction l with
  | nil => rfl
  | cons c l ih =>
    rw [List.foldl_cons, receive]
    by_cases hc : admits κ negotiationId nowMs c = true
    · have hlive : ∀ k d, (m.retain fun d => !expired d nowMs).get? k = some d →
          (!expired d nowMs) = true := fun k d hd => (OrdMap.get?_retain.1 hd).2
      rw [if_pos hc, List.filter_cons_of_pos hc, if_neg (List.cons_ne_nil _ _),
        foldl_receive_of_live (LastWriter.forall_apply _ _ _ hlive (not_expired_of_admits hc))]
      rfl
    · rw [if_neg hc, List.filter_cons_of_neg hc]
      exact ih

theorem retain_foldl_receive :
    (l.foldl (receive κ negotiationId nowMs) m).retain (fun d => !expired d nowMs) =
      LastWriter.applyAll (·.data.signer) (Counteroffer.rank κ) maxHeads
        (m.retain fun d => !expired d nowMs) (l.filter (admits κ negotiationId nowMs)) := by
  rw [foldl_receive]
  split
  next hnone =>
    rw [hnone]
    rfl
  next =>
    refine OrdMap.retain_eq_self (LastWriter.forall_applyAll _ _ _ ?_ ?_)
    · exact fun k d hd => (OrdMap.get?_retain.1 hd).2
    · exact fun c hc => not_expired_of_admits (List.mem_filter.1 hc).2

theorem mem_validCounteroffers (h : b.negotiations.get? negotiationId = some st) :
    c ∈ b.validCounteroffers negotiationId nowMs ↔
      (st.counteroffers.retain fun d => !expired d nowMs).get? c.data.signer = some c := by
  have hkey : (∃ k, st.counteroffers.get? k = some c) ↔
      st.counteroffers.get? c.data.signer = some c := by
    refine ⟨?_, fun h => ⟨_, h⟩⟩
    rintro ⟨k, hk⟩
    rwa [(st.checked k c hk).1]
  rw [validCounteroffers, h]
  dsimp only
  rw [List.mem_insertionSort, List.mem_filter, OrdMap.mem_values, hkey, OrdMap.get?_retain]

theorem validCounteroffers_sorted (h : b.negotiations.get? negotiationId = some st) :
    (b.validCounteroffers negotiationId nowMs).Pairwise fun c d =>
      c.data.signer < d.data.signer := by
  have hvalues := (OrdMap.pairwise_values fun k c hc => (st.checked k c hc).1).filter
    fun c => !expired c nowMs
  rw [validCounteroffers, h]
  exact pairwise_lt_insertionSort (hvalues.imp fun hlt => hlt.ne)

end NegotiationBook

/-! ## Convergence -/

/-- No signer has two different tickets of one revision. -/
def OneTicketPerRevision (l : List Ticket) : Prop :=
  ∀ t ∈ l, ∀ u ∈ l, t.data.signer = u.data.signer → t.data.revision = u.data.revision → t = u

def OneSignaturePerBody (l : List Counteroffer) : Prop :=
  ∀ c ∈ l, ∀ d ∈ l, c.data = d.data → c = d

def NegotiationState.candidates (κ : Primitives) (st : NegotiationState)
    (negotiationId : NegotiationId) (nowMs : UInt64) (l : List Counteroffer) :
    List Counteroffer :=
  (st.counteroffers.values.filter fun c => !expired c nowMs) ++
    l.filter (NegotiationBook.admits κ negotiationId nowMs)

variable {κ : Primitives}

theorem OfferBook.candidates_subset {l : List Ticket} : o.candidates κ l ⊆ o.tickets.values ++ l :=
  (List.Sublist.append (.refl _) List.filter_sublist).subset

variable {l : List Counteroffer}

theorem NegotiationState.candidates_subset {negotiationId : NegotiationId} :
    st.candidates κ negotiationId nowMs l ⊆ st.counteroffers.values ++ l :=
  (List.Sublist.append List.filter_sublist List.filter_sublist).subset

/-- A slot holds the highest revision of each signer. -/
theorem OfferBook.best {l : List Ticket}
    (hcount : ((o.tickets.values ++ l).map (·.data.signer)).toFinset.card ≤ maxHeads) :
    LastWriter.Best (·.data.signer) (·.data.revision.toNat)
      (LastWriter.applyAll (·.data.signer) (·.data.revision.toNat) maxHeads o.tickets
        (l.filter fun t => decide (t.verifyForOffer κ o.offerHash = .ok ())))
      (o.candidates κ l) := by
  refine (LastWriter.Best.values o.keyed).applyAll (fun t ht => ?_) hcount
  exact List.mem_toFinset.2 (List.mem_map_of_mem (candidates_subset ht))

theorem OfferBook.distinct {l : List Ticket} (h : OneTicketPerRevision (o.tickets.values ++ l)) :
    LastWriter.Distinct (·.data.signer) (·.data.revision.toNat) (o.candidates κ l) :=
  fun t ht u hu hsigner hrevision =>
    h t (candidates_subset ht) u (candidates_subset hu) hsigner (UInt64.toNat_inj.1 hrevision)

/-- The unexpired entries hold the highest rank of each signer. -/
theorem NegotiationState.best (negotiationId : NegotiationId) (nowMs : UInt64)
    (hcount : ((st.counteroffers.values ++ l).map (·.data.signer)).toFinset.card ≤ maxHeads) :
    LastWriter.Best (·.data.signer) (Counteroffer.rank κ)
      (LastWriter.applyAll (·.data.signer) (Counteroffer.rank κ) maxHeads
        (st.counteroffers.retain fun d => !expired d nowMs)
        (l.filter (NegotiationBook.admits κ negotiationId nowMs)))
      (st.candidates κ negotiationId nowMs l) := by
  have hvalues : LastWriter.Best (·.data.signer) (Counteroffer.rank κ)
      (st.counteroffers.retain fun d => !expired d nowMs) _ :=
    .values fun k c hc => (st.checked k c (OrdMap.get?_retain.1 hc).1).1
  rw [OrdMap.values_retain] at hvalues
  refine hvalues.applyAll (fun c hc => ?_) hcount
  exact List.mem_toFinset.2 (List.mem_map_of_mem (candidates_subset hc))

theorem NegotiationState.validate_of_mem_candidates {negotiationId : NegotiationId}
    {c : Counteroffer} (h : c ∈ st.candidates κ negotiationId nowMs l) : c.validate = .ok () := by
  obtain h | h := List.mem_append.1 h
  · obtain ⟨k, hk⟩ := OrdMap.mem_values.1 (List.mem_filter.1 h).1
    exact (st.checked k c hk).2
  · obtain ⟨-, hcheck⟩ := of_decide_eq_true (List.mem_filter.1 h).2
    exact ((checkCounteroffer_eq_ok κ).1 hcheck).1

theorem NegotiationState.distinct {negotiationId : NegotiationId}
    (hbody : OneSignaturePerBody (st.counteroffers.values ++ l))
    (hinj : Set.InjOn κ.blake3
      {x | x ∈ (st.counteroffers.values ++ l).map (·.data.signingBytes)}) :
    LastWriter.Distinct (·.data.signer) (Counteroffer.rank κ)
      (st.candidates κ negotiationId nowMs l) := by
  intro c hc d hd _ hrank
  have hhash : CounterofferHash.of κ c.data = CounterofferHash.of κ d.data :=
    congrArg (fun r => OrderDual.ofDual (ofLex r).2) hrank
  have hbytes := hinj (List.mem_map_of_mem (candidates_subset hc))
    (List.mem_map_of_mem (candidates_subset hd)) hhash
  refine hbody c (candidates_subset hc) d (candidates_subset hd) ?_
  exact Counteroffer.data_eq_of_signingBytes (validate_of_mem_candidates hc)
    (validate_of_mem_candidates hd) hbytes

theorem mem_append_filter_congr {α : Type} {p : α → Bool} {m l l' : List α}
    (h : ∀ a, a ∈ l' ↔ a ∈ l) (a : α) : a ∈ m ++ l'.filter p ↔ a ∈ m ++ l.filter p := by
  rw [List.mem_append, List.mem_append, List.mem_filter, List.mem_filter, h a]

theorem card_signers_congr {α β : Type} [DecidableEq β] {f : α → β} {m l l' : List α}
    (h : ∀ a, a ∈ l' ↔ a ∈ l) :
    ((m ++ l').map f).toFinset.card = ((m ++ l).map f).toFinset.card := by
  congr 1
  ext k
  simp only [List.mem_toFinset, List.mem_map, List.mem_append, h]

namespace NegotiationBook

variable {b : NegotiationBook} {negotiationId : NegotiationId} {offerSeq : UInt64}

theorem ticketSet_congr {b' : NegotiationBook} {o o' : OfferBook}
    (h : b.offerBook negotiationId offerSeq = some o)
    (h' : b'.offerBook negotiationId offerSeq = some o') (hcreator : o'.creator = o.creator)
    (htickets : o'.tickets = o.tickets) :
    b'.ticketSet negotiationId offerSeq = b.ticketSet negotiationId offerSeq := by
  have hkey : o'.sortKey = o.sortKey := by
    funext t
    rw [OfferBook.sortKey, OfferBook.sortKey, hcreator]
  rw [ticketSet, ticketSet, h, h']
  dsimp only
  rw [htickets, hkey]

theorem ticketSet_applyTickets_congr {o : OfferBook} {l l' : List Ticket}
    (h : b.offerBook negotiationId offerSeq = some o)
    (hslot : ∀ t ∈ l, t.data.negotiationId = negotiationId ∧ t.data.offerSeq = offerSeq)
    (hone : OneTicketPerRevision (o.tickets.values ++ l))
    (hcount : ((o.tickets.values ++ l).map (·.data.signer)).toFinset.card ≤ maxHeads)
    (hl' : ∀ t, t ∈ l' ↔ t ∈ l) :
    (b.applyTickets κ l').ticketSet negotiationId offerSeq =
      (b.applyTickets κ l).ticketSet negotiationId offerSeq := by
  obtain ⟨o₁, ho₁, hcreator₁, htickets₁⟩ := offerBook_applyTickets (κ := κ) h hslot
  obtain ⟨o₂, ho₂, hcreator₂, htickets₂⟩ := offerBook_applyTickets (κ := κ) (l := l') h
    fun t ht => hslot t ((hl' t).1 ht)
  refine ticketSet_congr ho₁ ho₂ (hcreator₂.trans hcreator₁.symm) ?_
  rw [htickets₁, htickets₂]
  refine (OfferBook.best (κ := κ) hcount).unique (OfferBook.best ?_)
    (OfferBook.distinct hone) ?_ |>.symm
  · rwa [card_signers_congr hl']
  · exact fun t => (mem_append_filter_congr hl' t).symm

theorem validCounteroffers_applyCounteroffers_congr {nowMs : UInt64} {st : NegotiationState}
    {l l' : List Counteroffer} (h : b.negotiations.get? negotiationId = some st)
    (hbody : OneSignaturePerBody (st.counteroffers.values ++ l))
    (hinj : Set.InjOn κ.blake3
      {x | x ∈ (st.counteroffers.values ++ l).map (·.data.signingBytes)})
    (hcount : ((st.counteroffers.values ++ l).map (·.data.signer)).toFinset.card ≤ maxHeads)
    (hl' : ∀ c, c ∈ l' ↔ c ∈ l) (clock : UInt64) :
    (b.applyCounteroffers κ l' nowMs).validCounteroffers negotiationId clock =
      (b.applyCounteroffers κ l nowMs).validCounteroffers negotiationId clock := by
  obtain ⟨st₁, hst₁, hmap₁⟩ := state_applyCounteroffers (κ := κ) (l := l) nowMs h
  obtain ⟨st₂, hst₂, hmap₂⟩ := state_applyCounteroffers (κ := κ) (l := l') nowMs h
  have hmaps : st₂.counteroffers = st₁.counteroffers := by
    have hbest := NegotiationState.best (κ := κ) negotiationId nowMs hcount
    have hbest' := NegotiationState.best (κ := κ) (l := l') negotiationId nowMs
      (by rwa [card_signers_congr hl'])
    have hunique := hbest.unique hbest' (NegotiationState.distinct hbody hinj)
      fun c => (mem_append_filter_congr hl' c).symm
    have hnil : l'.filter (admits κ negotiationId nowMs) = [] ↔
        l.filter (admits κ negotiationId nowMs) = [] := by
      simp only [List.filter_eq_nil_iff, hl']
    rw [hmap₁, hmap₂, foldl_receive, foldl_receive, hunique]
    simp only [hnil]
  rw [validCounteroffers, validCounteroffers, hst₁, hst₂]
  dsimp only
  rw [hmaps]

end NegotiationBook

/-- Books that have seen the same tickets of an offer, or at one time the same counteroffers of a
negotiation, return the same, whatever the order and the repetitions: of each signer the highest
valid revision unless it is withdrawn, the creator first and the others ascending; and of each
signer the counteroffer issued last, of two issued at one time the one with the lower hash. -/
theorem negotiation_books_converge (b : NegotiationBook) (negotiationId : NegotiationId) :
    (∀ offerSeq o l, b.offerBook negotiationId offerSeq = some o →
      (∀ t ∈ l, t.data.negotiationId = negotiationId ∧ t.data.offerSeq = offerSeq) →
      OneTicketPerRevision (o.tickets.values ++ l) →
      ((o.tickets.values ++ l).map (·.data.signer)).toFinset.card ≤ maxHeads →
      (∀ l', (∀ t, t ∈ l' ↔ t ∈ l) →
        (b.applyTickets κ l').ticketSet negotiationId offerSeq =
          (b.applyTickets κ l).ticketSet negotiationId offerSeq) ∧
      (∀ t, t ∈ (b.applyTickets κ l).ticketSet negotiationId offerSeq ↔
        t.data.action.isActive = true ∧ t ∈ o.candidates κ l ∧ ∀ u ∈ o.candidates κ l,
          u.data.signer = t.data.signer → u.data.revision ≤ t.data.revision) ∧
      ((b.applyTickets κ l).ticketSet negotiationId offerSeq).Pairwise fun t u =>
        u.data.signer ≠ o.creator ∧
          (t.data.signer = o.creator ∨ t.data.signer < u.data.signer)) ∧
    (∀ nowMs st l, b.negotiations.get? negotiationId = some st →
      OneSignaturePerBody (st.counteroffers.values ++ l) →
      Set.InjOn κ.blake3 {x | x ∈ (st.counteroffers.values ++ l).map (·.data.signingBytes)} →
      ((st.counteroffers.values ++ l).map (·.data.signer)).toFinset.card ≤ maxHeads →
      (∀ l', (∀ c, c ∈ l' ↔ c ∈ l) → ∀ clock,
        (b.applyCounteroffers κ l' nowMs).validCounteroffers negotiationId clock =
          (b.applyCounteroffers κ l nowMs).validCounteroffers negotiationId clock) ∧
      (∀ c, c ∈ (b.applyCounteroffers κ l nowMs).validCounteroffers negotiationId nowMs ↔
        c ∈ st.candidates κ negotiationId nowMs l ∧
          ∀ d ∈ st.candidates κ negotiationId nowMs l, d.data.signer = c.data.signer →
            d.data.issuedAtUnixMs < c.data.issuedAtUnixMs ∨
              d.data.issuedAtUnixMs = c.data.issuedAtUnixMs ∧
                CounterofferHash.of κ c.data ≤ CounterofferHash.of κ d.data) ∧
      ((b.applyCounteroffers κ l nowMs).validCounteroffers negotiationId nowMs).Pairwise
        fun c d => c.data.signer < d.data.signer) := by
  refine ⟨fun offerSeq o l h hslot hone hcount => ?_, fun nowMs st l h hbody hinj hcount => ?_⟩
  · obtain ⟨o', ho', hcreator, htickets⟩ :=
      NegotiationBook.offerBook_applyTickets (κ := κ) h hslot
    refine ⟨fun l' hl' => NegotiationBook.ticketSet_applyTickets_congr h hslot hone hcount hl',
      fun t => ?_, ?_⟩
    · rw [NegotiationBook.mem_ticketSet ho', htickets,
        (OfferBook.best hcount).get?_iff (OfferBook.distinct hone)]
      simp only [true_and, UInt64.le_iff_toNat_le]
    · rw [← hcreator]
      exact NegotiationBook.ticketSet_sorted ho'
  · obtain ⟨st', hst', hmap⟩ := NegotiationBook.state_applyCounteroffers (κ := κ) (l := l) nowMs h
    refine ⟨fun l' hl' => NegotiationBook.validCounteroffers_applyCounteroffers_congr h hbody hinj
      hcount hl', fun c => ?_, NegotiationBook.validCounteroffers_sorted hst'⟩
    have hbest := NegotiationState.best (κ := κ) negotiationId nowMs hcount
    rw [NegotiationBook.mem_validCounteroffers hst', hmap, NegotiationBook.retain_foldl_receive,
      hbest.get?_iff (NegotiationState.distinct hbody hinj)]
    simp only [true_and, Counteroffer.rank_le_rank]

namespace Sample

def negotiationId : NegotiationId := ⟨.replicate 32 9⟩

def offerBook : OfferBook := .new (OfferHash.of offerData) (peer 1)

def book : NegotiationBook := (NegotiationBook.new.registerOffer negotiationId 0 offer).2

def counterofferData (n : UInt8) (params : Bytes) : CounterofferData :=
  ⟨counterofferDomain, counterofferVersion, negotiationId, peer n, params, 7, 1000⟩

def counteroffer (n : UInt8) (params : Bytes) : Counteroffer :=
  ⟨counterofferData n params,
    referenceSign 64 (peer n).bytes.bytes (counterofferData n params).signingBytes⟩

/-- Two counteroffers of one time by one signer, and one of another. -/
def counteroffers : List Counteroffer := [counteroffer 1 [1], counteroffer 1 [2], counteroffer 2 []]

end Sample

open Sample in
/-- Reversed and repeated, the tickets and the counteroffers give what each once gives: the
counteroffer with the lower hash stands. -/
theorem negotiation_books_converge_registered :
    (book.applyTickets referencePrimitives
        (tickets.reverse ++ tickets)).ticketSet negotiationId 0 =
      tickets ∧
    (book.applyCounteroffers referencePrimitives
        (counteroffers.reverse ++ counteroffers) 8).validCounteroffers
        negotiationId 8 =
      [counteroffer 1 [2], counteroffer 2 []] := by
  obtain ⟨htickets, hcounteroffers⟩ :=
    negotiation_books_converge (κ := referencePrimitives) book negotiationId
  constructor
  · have hsame := (htickets 0 offerBook tickets rfl (by decide +kernel)
      (by unfold OneTicketPerRevision; decide +kernel) (by decide +kernel)).1
        (tickets.reverse ++ tickets) (by simp)
    exact hsame.trans (by decide +kernel)
  · have hinj : ∀ x ∈ counteroffers.map (·.data.signingBytes),
        ∀ y ∈ counteroffers.map (·.data.signingBytes),
          referencePrimitives.blake3 x = referencePrimitives.blake3 y → x = y := by
      decide +kernel
    have hsame := (hcounteroffers 8 (NegotiationState.empty.setOffer 0 offerBook)
      counteroffers rfl (by unfold OneSignaturePerBody; decide +kernel)
      (fun x hx y hy h => hinj x hx y hy h) (by decide +kernel)).1
        (counteroffers.reverse ++ counteroffers) (by simp) 8
    exact hsame.trans (by decide +kernel)

end Arena0
