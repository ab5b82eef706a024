import Arena0.Reference

/-!
# Ballots and single-proposal agreements

Program-level voting: a `Ballot` holds one slot for every eligible participant
and derives its result from the slots, closing as soon as the votes still missing
cannot change it.  An `Agreement` owns one proposal and its ballot.

The operations take `&mut self` in the source, so each returns its result beside
the value it leaves behind, also when the result is an error.
-/

namespace Arena0

open Borsh Fallible

/-- The `u8` index of a session participant. -/
abbrev Participant := Fin 256

instance instNeZeroParticipant : NeZero 256 := ⟨by decide⟩

structure ProposalId where
  version : UInt32
  hash : FixedBytes 32
  deriving DecidableEq

inductive Vote where
  | accept
  | reject
  deriving DecidableEq

inductive Tally where
  | notStarted
  | pending (accepts rejects remaining threshold : UInt16)
  | accepted (accepts rejects threshold : UInt16)
  | rejected (accepts rejects threshold : UInt16)
  deriving DecidableEq

inductive AgreementStatus where
  | idle | voting | accepted | rejected
  deriving DecidableEq

inductive BallotError where
  | noEligibleParticipants
  | duplicateParticipant (index : ℕ)
  | invalidThreshold (threshold : UInt16) (eligible : ℕ)
  | invalidProposalVersion
  | notStarted
  | ineligibleParticipant (index : ℕ)
  | duplicateVote (index : ℕ)
  | closed
  deriving DecidableEq

/-- A ballot over the exact eligible set, with one vote slot for each of them. -/
@[ext] structure Ballot where
  proposal : Option ProposalId
  eligible : List Participant
  votes : List (Option Vote)
  threshold : UInt16
  sorted : eligible.Pairwise (· < ·)
  aligned : votes.length = eligible.length
  bounds : proposal ≠ none → 1 ≤ threshold.toNat ∧ threshold.toNat ≤ eligible.length
  deriving DecidableEq

def adjacentDuplicate : List Participant → Option Participant
  | a :: b :: l => if a = b then some a else adjacentDuplicate (b :: l)
  | _ => none

theorem adjacentDuplicate_eq_none_iff : ∀ {l : List Participant},
    adjacentDuplicate l = none ↔ l.IsChain (· ≠ ·)
  | [] => by simp [adjacentDuplicate]
  | [a] => by simp [adjacentDuplicate]
  | a :: b :: l => by
    rw [List.isChain_cons_cons, ← adjacentDuplicate_eq_none_iff, adjacentDuplicate]
    split <;> simp_all

namespace Ballot

def canonical (eligible : List Participant) : List Participant :=
  eligible.insertionSort (· ≤ ·)

private theorem canonical_perm (eligible : List Participant) : (canonical eligible).Perm eligible :=
  List.perm_insertionSort _ _

private theorem canonical_sorted {eligible : List Participant}
    (h : adjacentDuplicate (canonical eligible) = none) :
    (canonical eligible).Pairwise (· < ·) := by
  have hle : (canonical eligible).IsChain (· ≤ ·) :=
    (List.pairwise_insertionSort (· ≤ ·) eligible).isChain
  have hne := adjacentDuplicate_eq_none_iff.1 h
  exact List.isChain_iff_pairwise.1 (isChain_lt_of_le_of_ne hle hne)

theorem adjacentDuplicate_canonical {eligible : List Participant} (h : eligible.Nodup) :
    adjacentDuplicate (canonical eligible) = none :=
  adjacentDuplicate_eq_none_iff.2 ((canonical_perm eligible).nodup_iff.2 h).isChain

def new (proposal : ProposalId) (eligible : List Participant) (threshold : UInt16) :
    Except BallotError Ballot :=
  if proposal.version = 0 then .error .invalidProposalVersion
  else if eligible = [] then .error .noEligibleParticipants
  else
    match h : adjacentDuplicate (canonical eligible) with
    | some duplicate => .error (.duplicateParticipant duplicate)
    | none =>
      if ht : threshold = 0 ∨ (canonical eligible).length < threshold.toNat then
        .error (.invalidThreshold threshold (canonical eligible).length)
      else
        .ok {
          proposal := some proposal
          eligible := canonical eligible
          votes := List.replicate (canonical eligible).length none
          threshold := threshold
          sorted := canonical_sorted h
          aligned := List.length_replicate
          bounds := fun _ => by
            have hz : threshold.toNat ≠ 0 := fun h0 => ht (.inl (UInt16.toNat_inj.1 h0))
            omega }

instance : Inhabited Ballot where
  default := {
    proposal := none
    eligible := []
    votes := []
    threshold := 0
    sorted := .nil
    aligned := rfl
    bounds := fun h => absurd rfl h }

/-- The slot of a participant: the canonical order holds each index at most once,
so the binary search finds its only position. -/
def position (ballot : Ballot) (participant : Participant) : Option ℕ :=
  ballot.eligible.idxOf? participant

def voteOf (ballot : Ballot) (participant : Participant) : Option Vote := do
  let position ← ballot.position participant
  (ballot.votes[position]?).join

def accepts (ballot : Ballot) : UInt16 :=
  .ofNat (ballot.votes.countP (· = some .accept))

def rejects (ballot : Ballot) : UInt16 :=
  .ofNat (ballot.votes.countP (· = some .reject))

def remaining (ballot : Ballot) : UInt16 :=
  .ofNat ballot.eligible.length - ballot.accepts - ballot.rejects

def tally (ballot : Ballot) : Tally :=
  if ballot.proposal = none then .notStarted
  else if ballot.threshold ≤ ballot.accepts then
    .accepted ballot.accepts ballot.rejects ballot.threshold
  else if ballot.accepts + ballot.remaining < ballot.threshold then
    .rejected ballot.accepts ballot.rejects ballot.threshold
  else
    .pending ballot.accepts ballot.rejects ballot.remaining ballot.threshold

end Ballot

def Tally.status : Tally → AgreementStatus
  | .notStarted => .idle
  | .pending .. => .voting
  | .accepted .. => .accepted
  | .rejected .. => .rejected

namespace Ballot

variable {ballot : Ballot} {p q : Participant}

variable {i : ℕ}

theorem position_lt (h : ballot.position p = some i) : i < ballot.votes.length := by
  obtain ⟨hi, -⟩ := List.idxOf?_eq_some_iff.1 h
  rw [ballot.aligned]
  exact hi

def fill (ballot : Ballot) (position : ℕ) (vote : Vote) : Ballot :=
  { ballot with
    votes := ballot.votes.set position (some vote)
    aligned := by rw [List.length_set, ballot.aligned] }

def cast (ballot : Ballot) (participant : Participant) (vote : Vote) :
    Except BallotError Tally × Ballot :=
  if ballot.proposal = none then (.error .notStarted, ballot)
  else if ballot.tally.status ≠ .voting then (.error .closed, ballot)
  else
    match h : ballot.position participant with
    | none => (.error (.ineligibleParticipant participant), ballot)
    | some position =>
      match ballot.votes.get ⟨position, position_lt h⟩ with
      | some _ => (.error (.duplicateVote participant), ballot)
      | none => (.ok (ballot.fill position vote).tally, ballot.fill position vote)

/-- Cast the votes in turn, refused ones among them. -/
def castAll (ballot : Ballot) (casts : List (Participant × Vote)) : Ballot :=
  casts.foldl (fun ballot c => (ballot.cast c.1 c.2).2) ballot

theorem castAll_cons (ballot : Ballot) (c : Participant × Vote)
    (casts : List (Participant × Vote)) :
    ballot.castAll (c :: casts) = (ballot.cast c.1 c.2).2.castAll casts :=
  rfl

/-! ## Slots -/

theorem nodup (ballot : Ballot) : ballot.eligible.Nodup :=
  ballot.sorted.imp ne_of_lt

theorem position_getElem (ballot : Ballot) (h : i < ballot.eligible.length) :
    ballot.position ballot.eligible[i] = some i := by
  refine List.idxOf?_eq_some_iff.2 ⟨h, rfl, ?_⟩
  intro j hj heq
  exact absurd (ballot.nodup.getElem_inj_iff.1 heq) (by omega)

theorem position_eq_none : ballot.position p = none ↔ p ∉ ballot.eligible := by
  rw [position, List.idxOf?_eq_none_iff]

theorem voteOf_of_position (h : ballot.position p = some i) :
    ballot.voteOf p = ballot.votes.get ⟨i, position_lt h⟩ := by
  simp [voteOf, h, position_lt h]

theorem voteOf_of_not_mem (h : p ∉ ballot.eligible) : ballot.voteOf p = none := by
  simp [voteOf, position_eq_none.2 h]

theorem mem_of_voteOf {v : Vote} (h : ballot.voteOf p = some v) : p ∈ ballot.eligible := by
  by_contra hp
  rw [voteOf_of_not_mem hp] at h
  cases h

theorem votes_eq_map (ballot : Ballot) : ballot.votes = ballot.eligible.map ballot.voteOf := by
  apply List.ext_getElem
  · rw [List.length_map, ballot.aligned]
  · intro i h₁ h₂
    rw [List.length_map] at h₂
    rw [List.getElem_map, voteOf_of_position (ballot.position_getElem h₂)]
    rfl

theorem eq_of_position (hp : ballot.position p = some i) (hq : ballot.position q = some i) :
    p = q := by
  obtain ⟨_, hp, -⟩ := List.idxOf?_eq_some_iff.1 hp
  obtain ⟨_, hq, -⟩ := List.idxOf?_eq_some_iff.1 hq
  rw [← hp, ← hq]

theorem voteOf_fill (h : ballot.position p = some i) (v : Vote) :
    (ballot.fill i v).voteOf = Function.update ballot.voteOf p (some v) := by
  funext q
  have hpos : (ballot.fill i v).position q = ballot.position q := rfl
  cases hq : ballot.position q with
  | none =>
    have hne : q ≠ p := by
      rintro rfl
      rw [h] at hq
      cases hq
    rw [Function.update_of_ne hne, voteOf_of_not_mem (position_eq_none.1 hq),
      voteOf_of_not_mem (position_eq_none.1 (hpos.trans hq))]
  | some j =>
    rw [voteOf_of_position (hpos.trans hq)]
    have hset : (ballot.fill i v).votes.get ⟨j, position_lt (hpos.trans hq)⟩ =
        if i = j then some v else ballot.votes.get ⟨j, position_lt hq⟩ :=
      List.getElem_set _
    rw [hset]
    split
    next hij =>
      obtain rfl : q = p := eq_of_position (hij ▸ hq) h
      rw [Function.update_self]
    next hij =>
      have hne : q ≠ p := by
        rintro rfl
        exact hij (Option.some.inj (h.symm.trans hq))
      rw [Function.update_of_ne hne, voteOf_of_position hq]

/-! ## Counting

An index is a `u8`, so the eligible set has at most 256 members and every count
fits the `u16` it is narrowed to. -/

/-- The number of eligible participants whose slot holds `slot`. -/
def count (ballot : Ballot) (slot : Option Vote) : ℕ :=
  ballot.eligible.countP fun p => ballot.voteOf p = slot

theorem length_eligible_le (ballot : Ballot) : ballot.eligible.length ≤ 256 := by
  have h := ballot.nodup.length_le_card
  rwa [Fintype.card_fin] at h

theorem countP_votes (ballot : Ballot) (slot : Option Vote) :
    ballot.votes.countP (· = slot) = ballot.count slot := by
  rw [votes_eq_map, List.countP_map]
  rfl

private theorem countP_slots (l : List Participant) (slot : Participant → Option Vote) :
    l.countP (fun p => slot p = some .accept) + l.countP (fun p => slot p = some .reject) +
      l.countP (fun p => slot p = none) = l.length := by
  induction l with
  | nil => rfl
  | cons p l ih =>
    rw [List.countP_cons, List.countP_cons, List.countP_cons, List.length_cons]
    rcases h : slot p with _ | _ | _ <;> simp <;> omega

theorem count_add (ballot : Ballot) :
    ballot.count (some .accept) + ballot.count (some .reject) + ballot.count none =
      ballot.eligible.length :=
  countP_slots _ _

theorem toNat_count (ballot : Ballot) (slot : Option Vote) :
    (UInt16.ofNat (ballot.votes.countP (· = slot))).toNat = ballot.count slot := by
  have hle : ballot.count slot ≤ ballot.eligible.length := List.countP_le_length
  have := ballot.length_eligible_le
  rw [UInt16.toNat_ofNat', countP_votes]
  omega

@[simp] theorem toNat_accepts (ballot : Ballot) :
    ballot.accepts.toNat = ballot.count (some .accept) :=
  ballot.toNat_count _

@[simp] theorem toNat_rejects (ballot : Ballot) :
    ballot.rejects.toNat = ballot.count (some .reject) :=
  ballot.toNat_count _

/-- The narrowing casts, the two subtractions and the sum of `tally` are exact. -/
structure Exact (ballot : Ballot) : Prop where
  eligible : (UInt16.ofNat ballot.eligible.length).toNat = ballot.eligible.length
  accepts : ballot.accepts.toNat = ballot.votes.countP (· = some .accept)
  rejects : ballot.rejects.toNat = ballot.votes.countP (· = some .reject)
  uncast : ballot.accepts.toNat + ballot.rejects.toNat ≤ ballot.eligible.length
  remaining : ballot.remaining.toNat =
    ballot.eligible.length - ballot.accepts.toNat - ballot.rejects.toNat
  sum : (ballot.accepts + ballot.remaining).toNat =
    ballot.accepts.toNat + ballot.remaining.toNat

theorem exact (ballot : Ballot) : ballot.Exact := by
  have hlen := ballot.length_eligible_le
  have hadd := ballot.count_add
  have he : (UInt16.ofNat ballot.eligible.length).toNat = ballot.eligible.length := by
    rw [UInt16.toNat_ofNat']
    omega
  have hsub : (UInt16.ofNat ballot.eligible.length - ballot.accepts).toNat =
      ballot.eligible.length - ballot.accepts.toNat := by
    rw [UInt16.toNat_sub_of_le, he]
    rw [UInt16.le_iff_toNat_le, he, toNat_accepts]
    omega
  have hrem : ballot.remaining.toNat =
      ballot.eligible.length - ballot.accepts.toNat - ballot.rejects.toNat := by
    rw [remaining, UInt16.toNat_sub_of_le, hsub]
    rw [UInt16.le_iff_toNat_le, hsub, toNat_accepts, toNat_rejects]
    omega
  refine ⟨he, ?_, ?_, ?_, hrem, ?_⟩
  · rw [toNat_accepts, countP_votes]
  · rw [toNat_rejects, countP_votes]
  · rw [toNat_accepts, toNat_rejects]
    omega
  · rw [UInt16.toNat_add, hrem, toNat_accepts, toNat_rejects]
    omega

@[simp] theorem toNat_remaining (ballot : Ballot) : ballot.remaining.toNat = ballot.count none := by
  have h := ballot.count_add
  rw [ballot.exact.remaining, toNat_accepts, toNat_rejects]
  omega

theorem status_eq (h : ballot.proposal ≠ none) :
    ballot.tally.status =
      if ballot.threshold.toNat ≤ ballot.count (some .accept) then .accepted
      else if ballot.count (some .accept) + ballot.count none < ballot.threshold.toNat then
        .rejected
      else .voting := by
  have hsum : (ballot.accepts + ballot.remaining).toNat =
      ballot.count (some .accept) + ballot.count none := by
    rw [ballot.exact.sum, toNat_accepts, toNat_remaining]
  simp only [tally, if_neg h, UInt16.le_iff_toNat_le, UInt16.lt_iff_toNat_lt, toNat_accepts, hsum]
  split
  · rfl
  · split <;> rfl

theorem status_eq_idle : ballot.tally.status = .idle ↔ ballot.proposal = none := by
  constructor
  · intro h
    by_contra hp
    rw [status_eq hp] at h
    split at h
    · cases h
    · split at h <;> cases h
  · intro h
    simp [tally, h, Tally.status]

def Closed (ballot : Ballot) : Prop :=
  ballot.tally.status = .accepted ∨ ballot.tally.status = .rejected

/-! ## One vote -/

/-- A vote is taken when the ballot is open and the participant owes one. -/
def Owes (ballot : Ballot) (p : Participant) : Prop :=
  ballot.tally.status = .voting ∧ p ∈ ballot.eligible ∧ ballot.voteOf p = none

/-- `after` is `ballot` with the vote of `p` recorded. -/
structure Recorded (ballot after : Ballot) (p : Participant) (v : Vote) : Prop where
  proposal : after.proposal = ballot.proposal
  eligible : after.eligible = ballot.eligible
  threshold : after.threshold = ballot.threshold
  voteOf : after.voteOf = Function.update ballot.voteOf p (some v)

theorem cast_of_owes (h : ballot.Owes p) (v : Vote) :
    ∃ after, ballot.cast p v = (.ok after.tally, after) ∧ ballot.Recorded after p v := by
  obtain ⟨hs, hp, hv⟩ := h
  have hprop : ballot.proposal ≠ none := by
    rw [Ne, ← status_eq_idle, hs]
    exact nofun
  unfold cast
  rw [if_neg hprop, if_neg (not_not.2 hs)]
  split
  next hpos => exact absurd hp (position_eq_none.1 hpos)
  next i hpos =>
    rw [voteOf_of_position hpos] at hv
    rw [hv]
    exact ⟨_, rfl, rfl, rfl, rfl, voteOf_fill hpos v⟩

theorem cast_of_not_owes (h : ¬ ballot.Owes p) (v : Vote) :
    ∃ e, ballot.cast p v = (.error e, ballot) := by
  unfold cast
  split
  · exact ⟨_, rfl⟩
  · split
    · exact ⟨_, rfl⟩
    next hs =>
      rw [not_not] at hs
      split
      · exact ⟨_, rfl⟩
      next i hpos =>
        have hp : p ∈ ballot.eligible := by
          by_contra hp
          rw [position_eq_none.2 hp] at hpos
          cases hpos
        split
        · exact ⟨_, rfl⟩
        next hv => exact absurd ⟨hs, hp, (voteOf_of_position hpos).trans hv⟩ h

/-- What a vote does: it is recorded, or refused without a trace. -/
theorem cast_cases (ballot : Ballot) (p : Participant) (v : Vote) :
    (ballot.Owes p ∧ ballot.Recorded (ballot.cast p v).2 p v) ∨
      (¬ ballot.Owes p ∧ (ballot.cast p v).2 = ballot) := by
  by_cases h : ballot.Owes p
  · obtain ⟨after, hc, hr⟩ := cast_of_owes h v
    exact .inl ⟨h, by rwa [hc]⟩
  · obtain ⟨e, hc⟩ := cast_of_not_owes h v
    exact .inr ⟨h, by rw [hc]⟩

theorem cast_error {v : Vote} {e : BallotError} (h : (ballot.cast p v).1 = .error e) :
    (ballot.cast p v).2 = ballot := by
  by_cases ho : ballot.Owes p
  · obtain ⟨after, hc, -⟩ := cast_of_owes ho v
    rw [hc] at h
    cases h
  · obtain ⟨_, hc⟩ := cast_of_not_owes ho v
    rw [hc]

theorem Closed.cast (h : ballot.Closed) (p : Participant) (v : Vote) :
    ballot.cast p v = (.error .closed, ballot) := by
  have hprop : ballot.proposal ≠ none := by
    rw [Ne, ← status_eq_idle]
    rcases h with h | h <;> rw [h] <;> exact nofun
  have hs : ballot.tally.status ≠ .voting := by
    rcases h with h | h <;> rw [h] <;> exact nofun
  rw [Ballot.cast, if_neg hprop, if_pos hs]

@[simp] theorem cast_proposal (ballot : Ballot) (p : Participant) (v : Vote) :
    (ballot.cast p v).2.proposal = ballot.proposal := by
  obtain ⟨-, h⟩ | ⟨-, h⟩ := ballot.cast_cases p v
  · exact h.proposal
  · rw [h]

/-! ## All the votes -/

def firstVote (casts : List (Participant × Vote)) (p : Participant) : Option Vote :=
  (casts.find? (·.1 = p)).map (·.2)

/-- Every eligible participant casts its vote of the assignment, in any order.
Anything may stand between: second votes, also contrary ones, and votes of
participants outside the eligible set. -/
def Complete (eligible : List Participant) (assignment : Participant → Vote)
    (casts : List (Participant × Vote)) : Prop :=
  ∀ p ∈ eligible, firstVote casts p = some (assignment p)

instance (eligible : List Participant) (assignment : Participant → Vote)
    (casts : List (Participant × Vote)) : Decidable (Complete eligible assignment casts) :=
  inferInstanceAs (Decidable (∀ p ∈ eligible, firstVote casts p = some (assignment p)))

theorem firstVote_append (casts : List (Participant × Vote)) (c : Participant × Vote)
    (p : Participant) :
    firstVote (casts ++ [c]) p =
      (firstVote casts p).or (if c.1 = p then some c.2 else none) := by
  rw [firstVote, firstVote, List.find?_append, List.find?_singleton]
  cases casts.find? (·.1 = p) with
  | some d => rfl
  | none => by_cases h : c.1 = p <;> simp [h]

/-- The slots against the votes cast so far: only first votes are recorded, and
all of them while the ballot is open. -/
structure Follows (ballot : Ballot) (casts : List (Participant × Vote)) : Prop where
  part : ∀ p v, ballot.voteOf p = some v → firstVote casts p = some v
  all : ballot.tally.status = .voting → ∀ p ∈ ballot.eligible,
    ballot.voteOf p = firstVote casts p

theorem Follows.cast {casts : List (Participant × Vote)} (h : ballot.Follows casts)
    (c : Participant × Vote) : (ballot.cast c.1 c.2).2.Follows (casts ++ [c]) := by
  obtain ⟨⟨hs, hp, hv⟩, hr⟩ | ⟨ho, hc⟩ := ballot.cast_cases c.1 c.2
  · -- the first vote of `c.1`
    have hfirst : firstVote casts c.1 = none := (h.all hs c.1 hp).symm.trans hv
    have hall : ∀ p ∈ ballot.eligible,
        (ballot.cast c.1 c.2).2.voteOf p = firstVote (casts ++ [c]) p := by
      intro p hp
      rw [hr.voteOf, firstVote_append]
      by_cases hpc : p = c.1
      · rw [hpc, Function.update_self, hfirst, if_pos rfl, Option.none_or]
      · rw [Function.update_of_ne hpc, h.all hs p hp, if_neg (Ne.symm hpc), Option.or_none]
    refine ⟨?_, ?_⟩
    · intro p v hpv
      rw [← hall p (hr.eligible ▸ mem_of_voteOf hpv), hpv]
    · intro _ p hp
      exact hall p (hr.eligible ▸ hp)
  · rw [hc]
    refine ⟨?_, ?_⟩
    · intro p v hpv
      rw [firstVote_append, h.part p v hpv, Option.some_or]
    · intro hs p hp
      rw [firstVote_append, ← h.all hs p hp]
      cases hv : ballot.voteOf p with
      | some v => rfl
      | none =>
        have hne : c.1 ≠ p := by
          rintro rfl
          exact ho ⟨hs, hp, hv⟩
        rw [if_neg hne, Option.or_none]

theorem Follows.castAll {done : List (Participant × Vote)} (h : ballot.Follows done)
    (casts : List (Participant × Vote)) : (ballot.castAll casts).Follows (done ++ casts) := by
  induction casts generalizing ballot done with
  | nil => simpa [Ballot.castAll] using h
  | cons c casts ih =>
    have hrest := ih (h.cast c)
    rwa [List.append_assoc] at hrest

theorem castAll_fixed (ballot : Ballot) (casts : List (Participant × Vote)) :
    (ballot.castAll casts).proposal = ballot.proposal ∧
      (ballot.castAll casts).eligible = ballot.eligible ∧
      (ballot.castAll casts).threshold = ballot.threshold := by
  induction casts generalizing ballot with
  | nil => exact ⟨rfl, rfl, rfl⟩
  | cons c casts ih =>
    rw [castAll_cons]
    obtain ⟨-, hr⟩ | ⟨-, hc⟩ := ballot.cast_cases c.1 c.2
    · obtain ⟨h₁, h₂, h₃⟩ := ih (ballot.cast c.1 c.2).2
      exact ⟨h₁.trans hr.proposal, h₂.trans hr.eligible, h₃.trans hr.threshold⟩
    · rw [hc]
      exact ih ballot

theorem Closed.castAll (h : ballot.Closed) (casts : List (Participant × Vote)) :
    ballot.castAll casts = ballot := by
  induction casts with
  | nil => rfl
  | cons c casts ih => rw [castAll_cons, h.cast, ih]

/-! ## The decision -/

def fullVote (eligible : List Participant) (threshold : UInt16)
    (assignment : Participant → Vote) : AgreementStatus :=
  if threshold.toNat ≤ eligible.countP (fun p => assignment p = .accept) then .accepted
  else .rejected

private theorem countP_le_add (l : List Participant) (slot : Participant → Option Vote)
    (assignment : Participant → Vote)
    (h : ∀ p ∈ l, ∀ v, slot p = some v → v = assignment p) :
    l.countP (fun p => assignment p = .accept) ≤
      l.countP (fun p => slot p = some .accept) + l.countP (fun p => slot p = none) := by
  induction l with
  | nil => simp
  | cons p l ih =>
    have hrest := ih fun q hq => h q (List.mem_cons_of_mem _ hq)
    have hp := h p List.mem_cons_self
    rw [List.countP_cons, List.countP_cons, List.countP_cons]
    cases hs : slot p with
    | none => simp; split <;> omega
    | some v => simp [hp v hs]; split <;> omega

/-- Recorded votes of an assignment settle the decision of the full vote as soon
as the ballot is closed or no vote is missing. -/
theorem status_eq_fullVote (assignment : Participant → Vote) (hprop : ballot.proposal ≠ none)
    (hpart : ∀ p ∈ ballot.eligible, ∀ v, ballot.voteOf p = some v → v = assignment p)
    (hall : ballot.tally.status = .voting → ballot.count none = 0) :
    ballot.tally.status = fullVote ballot.eligible ballot.threshold assignment := by
  have hlo : ballot.count (some .accept) ≤
      ballot.eligible.countP (fun p => assignment p = .accept) := by
    apply List.countP_mono_left
    intro p hp hv
    have hv : ballot.voteOf p = some .accept := by simpa using hv
    simp [← hpart p hp _ hv]
  have hhi : ballot.eligible.countP (fun p => assignment p = .accept) ≤
      ballot.count (some .accept) + ballot.count none :=
    countP_le_add _ _ _ hpart
  have hstatus := status_eq hprop
  rw [fullVote]
  split at hstatus
  next h => rw [hstatus, if_pos (by omega)]
  next h =>
    split at hstatus
    next h' => rw [hstatus, if_neg (by omega)]
    next h' =>
      have := hall hstatus
      omega

/-- A ballot as `new` configures it. -/
structure Configured (ballot : Ballot) (proposal : ProposalId) (eligible : List Participant)
    (threshold : UInt16) : Prop where
  proposal : ballot.proposal = some proposal
  eligible : ballot.eligible.Perm eligible
  threshold : ballot.threshold = threshold
  uncast : ∀ p, ballot.voteOf p = none

variable {proposal : ProposalId} {eligible : List Participant} {threshold : UInt16}

theorem new_configured (h : new proposal eligible threshold = .ok ballot) :
    ballot.Configured proposal eligible threshold := by
  unfold new at h
  split at h
  · cases h
  · split at h
    · cases h
    · split at h
      · cases h
      · split at h
        · cases h
        · cases h
          refine ⟨rfl, canonical_perm eligible, rfl, fun p => ?_⟩
          rw [voteOf]
          cases position _ p with
          | none => rfl
          | some i =>
            simp only [Option.bind_eq_bind, Option.bind_some, List.getElem?_replicate]
            split <;> rfl

theorem exists_new (hv : proposal.version ≠ 0) (hn : eligible.Nodup) (h₁ : 1 ≤ threshold.toNat)
    (h₂ : threshold.toNat ≤ eligible.length) :
    ∃ ballot, new proposal eligible threshold = .ok ballot := by
  have hne : eligible ≠ [] := by
    rintro rfl
    rw [List.length_nil] at h₂
    omega
  have hlen := (canonical_perm eligible).length_eq
  have ht : ¬ (threshold = 0 ∨ (canonical eligible).length < threshold.toNat) := by
    rintro (rfl | h)
    · simp at h₁
    · omega
  unfold new
  rw [if_neg hv, if_neg hne]
  split
  next d hd =>
    rw [adjacentDuplicate_canonical hn] at hd
    cases hd
  next =>
    rw [dif_neg ht]
    exact ⟨_, rfl⟩

theorem Configured.castAll (h : ballot.Configured proposal eligible threshold)
    {assignment : Participant → Vote} {casts : List (Participant × Vote)}
    (hcasts : Complete eligible assignment casts) :
    (ballot.castAll casts).tally.status = fullVote eligible threshold assignment := by
  have hnew : ballot.Follows [] := ⟨fun p v hv => absurd (h.uncast p ▸ hv) nofun,
    fun _ p _ => h.uncast p⟩
  have hf := hnew.castAll casts
  obtain ⟨hp, he, ht⟩ := ballot.castAll_fixed casts
  have hfirst : ∀ p ∈ (ballot.castAll casts).eligible,
      firstVote casts p = some (assignment p) := by
    intro p hp
    exact hcasts p (h.eligible.subset (he ▸ hp))
  rw [status_eq_fullVote assignment, fullVote, fullVote, he, ht, h.threshold,
    h.eligible.countP_eq]
  · rw [hp, h.proposal]
    exact nofun
  · intro p hp v hv
    exact Option.some.inj ((hf.part p v hv).symm.trans (hfirst p hp))
  · intro hs
    apply List.countP_eq_zero.2
    intro p hp
    have hv := (hf.all hs p hp).trans (hfirst p hp)
    simp [hv]

theorem closed_of_fullVote {assignment : Participant → Vote}
    (h : ballot.tally.status = fullVote eligible threshold assignment) : ballot.Closed := by
  rw [fullVote] at h
  split at h
  · exact .inl h
  · exact .inr h

/-- Every complete run of votes ends in the decision of the full vote, whatever
its order, and later votes leave it there. -/
def DecidesFullVote (ballot : Ballot) (eligible : List Participant) (threshold : UInt16) : Prop :=
  ∀ assignment casts, Complete eligible assignment casts →
    (ballot.castAll casts).tally.status = fullVote eligible threshold assignment ∧
      ∀ late, ballot.castAll (casts ++ late) = ballot.castAll casts

theorem Configured.decides (h : ballot.Configured proposal eligible threshold) :
    ballot.DecidesFullVote eligible threshold := by
  intro assignment casts hcasts
  have hstatus := h.castAll hcasts
  refine ⟨hstatus, fun late => ?_⟩
  rw [Ballot.castAll, List.foldl_append]
  exact (closed_of_fullVote hstatus).castAll late

end Ballot

/-! ## Agreements -/

inductive AgreementError where
  | alreadyProposed
  | notVoting
  | proposalMismatch
  | proposalEncoding
  | ballot (e : BallotError)
  deriving DecidableEq

structure ProposalRef (T : Type) where
  id : ProposalId
  value : T

/-- One proposal and its ballot: the value is there exactly when the ballot has started. -/
@[ext] structure Agreement (T : Type) where
  value : Option T
  ballot : Ballot
  owned : value.isSome = ballot.proposal.isSome

def proposalHashDomain : Bytes := Codec.utf8 "arena0/agreement/proposal/v1\x00"

namespace Agreement

variable {T : Type}

instance : Inhabited (Agreement T) where
  default := ⟨none, default, rfl⟩

def status (agreement : Agreement T) : AgreementStatus :=
  agreement.ballot.tally.status

def proposal (agreement : Agreement T) : Option (ProposalRef T) := do
  let id ← agreement.ballot.proposal
  let value ← agreement.value
  pure ⟨id, value⟩

def accepted (agreement : Agreement T) : Option (ProposalRef T) :=
  if agreement.status = .accepted then agreement.proposal else none

def vote (agreement : Agreement T) (participant : Participant) (proposalId : ProposalId)
    (vote : Vote) : Except AgreementError Tally × Agreement T :=
  if agreement.status ≠ .voting then (.error .notVoting, agreement)
  else if agreement.ballot.proposal ≠ some proposalId then (.error .proposalMismatch, agreement)
  else
    ((agreement.ballot.cast participant vote).1.mapError .ballot,
      { agreement with
        ballot := (agreement.ballot.cast participant vote).2
        owned := by rw [Ballot.cast_proposal, agreement.owned] })

section

variable (κ : Primitives) (toVec : T → Option Bytes)

def proposalId (version : UInt32) (value : T) : Except AgreementError ProposalId :=
  if version = 0 then .error (.ballot .invalidProposalVersion)
  else do
    let encoded ← okOr (toVec value) .proposalEncoding
    pure ⟨version, κ.blake3 (proposalHashDomain ++ Codec.u32.encode version ++ encoded)⟩

def propose (agreement : Agreement T) (version : UInt32) (value : T)
    (eligible : List Participant) (threshold : UInt16) :
    Except AgreementError ProposalId × Agreement T :=
  if agreement.ballot.proposal ≠ none then (.error .alreadyProposed, agreement)
  else
    match proposalId κ toVec version value with
    | .error e => (.error e, agreement)
    | .ok id =>
      match h : Ballot.new id eligible threshold with
      | .error e => (.error (.ballot e), agreement)
      | .ok ballot =>
        (.ok id, ⟨some value, ballot, by rw [(Ballot.new_configured h).proposal]; rfl⟩)

end

inductive Action (T : Type) where
  | propose (version : UInt32) (value : T) (eligible : List Participant) (threshold : UInt16)
  | vote (participant : Participant) (proposalId : ProposalId) (vote : Vote)

section

variable (κ : Primitives) (toVec : T → Option Bytes)

def step (agreement : Agreement T) :
    Action T → Except AgreementError (ProposalId ⊕ Tally) × Agreement T
  | .propose version value eligible threshold =>
    (agreement.propose κ toVec version value eligible threshold).map (·.map .inl) id
  | .vote participant proposalId vote =>
    (agreement.vote participant proposalId vote).map (·.map .inr) id

def run (agreement : Agreement T) (actions : List (Action T)) : Agreement T :=
  actions.foldl (fun agreement action => (agreement.step κ toVec action).2) agreement

def fixed (agreement : Agreement T) : Action T → Option (ProposalRef T)
  | .propose version value eligible threshold =>
    match (agreement.propose κ toVec version value eligible threshold).1 with
    | .ok id => some ⟨id, value⟩
    | .error _ => none
  | .vote .. => none

def proposals (agreement : Agreement T) : List (Action T) → List (ProposalRef T)
  | [] => []
  | action :: actions =>
    (agreement.fixed κ toVec action).toList ++
      proposals (agreement.step κ toVec action).2 actions

end

def castsFor (id : ProposalId) (actions : List (Action T)) : List (Participant × Vote) :=
  actions.filterMap fun
    | .vote participant proposalId vote =>
      if proposalId = id then some (participant, vote) else none
    | .propose .. => none

variable {κ : Primitives} {toVec : T → Option Bytes} {agreement : Agreement T}

theorem propose_cases (κ : Primitives) (toVec : T → Option Bytes) (agreement : Agreement T)
    (version : UInt32) (value : T) (eligible : List Participant) (threshold : UInt16) :
    (∃ id after, agreement.propose κ toVec version value eligible threshold = (.ok id, after) ∧
        agreement.ballot.proposal = none ∧ after.value = some value ∧
        after.ballot.Configured id eligible threshold) ∨
      ∃ e, agreement.propose κ toVec version value eligible threshold =
        (.error e, agreement) := by
  unfold propose
  split
  · exact .inr ⟨_, rfl⟩
  next hp =>
    split
    · exact .inr ⟨_, rfl⟩
    · split
      · exact .inr ⟨_, rfl⟩
      next hnew =>
        exact .inl ⟨_, _, rfl, not_not.1 hp, rfl, Ballot.new_configured hnew⟩

theorem exists_propose {version : UInt32} {value : T} {encoded : Bytes}
    {eligible : List Participant} {threshold : UInt16} (hp : agreement.ballot.proposal = none)
    (henc : toVec value = some encoded) (hv : version ≠ 0) (hn : eligible.Nodup)
    (h₁ : 1 ≤ threshold.toNat) (h₂ : threshold.toNat ≤ eligible.length) :
    ∃ id, (agreement.propose κ toVec version value eligible threshold).1 = .ok id := by
  obtain ⟨id, hid, hidv⟩ : ∃ id, proposalId κ toVec version value = .ok id ∧ id.version ≠ 0 := by
    refine ⟨⟨version, κ.blake3 (proposalHashDomain ++ Codec.u32.encode version ++ encoded)⟩,
      ?_, hv⟩
    rw [proposalId, if_neg hv, henc]
    rfl
  obtain ⟨ballot, hok⟩ := Ballot.exists_new hidv hn h₁ h₂
  unfold propose
  rw [if_neg (not_not.2 hp), hid]
  dsimp only
  split
  next hnew =>
    rw [hok] at hnew
    cases hnew
  next => exact ⟨_, rfl⟩

variable {id : ProposalId}

theorem vote_error {p : Participant} {v : Vote} {e : AgreementError}
    (h : (agreement.vote p id v).1 = .error e) : (agreement.vote p id v).2 = agreement := by
  unfold vote at h ⊢
  split
  · rfl
  next hs =>
    split
    · rfl
    next hp =>
      rw [if_neg hs, if_neg hp] at h
      have hcast : ∃ e, (agreement.ballot.cast p v).1 = .error e := by
        cases hc : (agreement.ballot.cast p v).1 with
        | error e => exact ⟨e, rfl⟩
        | ok t =>
          rw [hc] at h
          cases h
      obtain ⟨e, hc⟩ := hcast
      simp only [Ballot.cast_error hc]

private theorem step_error {action : Action T} {e : AgreementError}
    (h : (agreement.step κ toVec action).1 = .error e) :
    (agreement.step κ toVec action).2 = agreement := by
  cases action with
  | propose version value eligible threshold =>
    rw [step] at h ⊢
    obtain ⟨id, after, hp, -⟩ | ⟨e, hp⟩ :=
      agreement.propose_cases κ toVec version value eligible threshold
    · rw [hp] at h
      cases h
    · rw [hp]
      rfl
  | vote p id v =>
    have hvote : ∃ e, (agreement.vote p id v).1 = .error e := by
      rw [step] at h
      cases hc : (agreement.vote p id v).1 with
      | error e => exact ⟨e, rfl⟩
      | ok t =>
        rw [Prod.map_fst, hc] at h
        cases h
    exact vote_error hvote.choose_spec

theorem value_vote (agreement : Agreement T) (p : Participant) (id : ProposalId) (v : Vote) :
    (agreement.vote p id v).2.value = agreement.value := by
  unfold vote
  split
  · rfl
  · split <;> rfl

theorem ballot_vote {id' : ProposalId} (hp : agreement.ballot.proposal = some id) (p : Participant)
    (v : Vote) :
    (agreement.vote p id' v).2.ballot =
      if id' = id then (agreement.ballot.cast p v).2 else agreement.ballot := by
  unfold vote
  split
  next hs =>
    split
    next hid =>
      -- not open but started, so closed: the cast is refused as well
      have hclosed : agreement.ballot.Closed := by
        have hidle : agreement.status ≠ .idle := by
          rw [status, Ne, Ballot.status_eq_idle, hp]
          exact nofun
        cases h : agreement.status with
        | idle => exact absurd h hidle
        | voting => exact absurd h hs
        | accepted => exact .inl h
        | rejected => exact .inr h
      rw [hclosed.cast]
    next => rfl
  next hs =>
    by_cases hid : id' = id
    · rw [if_neg (not_not.2 (hid ▸ hp)), if_pos hid]
    · have hne : agreement.ballot.proposal ≠ some id' := by
        rw [hp]
        exact fun h => hid (Option.some.inj h).symm
      rw [if_pos hne, if_neg hid]

private theorem step_of_started (κ : Primitives) (toVec : T → Option Bytes)
    (hp : agreement.ballot.proposal = some id) (action : Action T) :
    (agreement.step κ toVec action).2.value = agreement.value ∧
      (agreement.step κ toVec action).2.ballot =
        agreement.ballot.castAll (castsFor id [action]) := by
  cases action with
  | propose version value eligible threshold =>
    have hrefused : agreement.propose κ toVec version value eligible threshold =
        (.error .alreadyProposed, agreement) := by
      rw [propose, if_pos (by rw [hp]; exact nofun)]
    rw [step, hrefused]
    exact ⟨rfl, rfl⟩
  | vote p id' v =>
    refine ⟨agreement.value_vote p id' v, (ballot_vote hp p v).trans ?_⟩
    by_cases hid : id' = id
    · simp [castsFor, hid, Ballot.castAll]
    · simp [castsFor, hid, Ballot.castAll]

theorem run_of_started (hp : agreement.ballot.proposal = some id) (actions : List (Action T)) :
    (agreement.run κ toVec actions).value = agreement.value ∧
      (agreement.run κ toVec actions).ballot =
        agreement.ballot.castAll (castsFor id actions) := by
  induction actions generalizing agreement with
  | nil => exact ⟨rfl, rfl⟩
  | cons action actions ih =>
    obtain ⟨hv, hb⟩ := step_of_started κ toVec hp action
    have hp' : (agreement.step κ toVec action).2.ballot.proposal = some id := by
      rw [hb, (agreement.ballot.castAll_fixed _).1, hp]
    obtain ⟨hv', hb'⟩ := ih hp'
    refine ⟨hv'.trans hv, hb'.trans ?_⟩
    rw [hb, Ballot.castAll, Ballot.castAll, ← List.foldl_append, castsFor, castsFor,
      ← List.filterMap_append]
    rfl

theorem proposal_eq_some {ref : ProposalRef T} :
    agreement.proposal = some ref ↔
      agreement.ballot.proposal = some ref.id ∧ agreement.value = some ref.value := by
  obtain ⟨id, value⟩ := ref
  simp [proposal, Option.bind_eq_some_iff]

theorem proposal_vote (agreement : Agreement T) (p : Participant) (id : ProposalId) (v : Vote) :
    (agreement.vote p id v).2.proposal = agreement.proposal := by
  have hb : (agreement.vote p id v).2.ballot.proposal = agreement.ballot.proposal := by
    unfold vote
    split
    · rfl
    · split
      · rfl
      · exact Ballot.cast_proposal _ _ _
  rw [proposal, proposal, hb, value_vote]

private theorem proposal_step (agreement : Agreement T) (action : Action T) :
    (agreement.step κ toVec action).2.proposal.toList =
      agreement.proposal.toList ++ (agreement.fixed κ toVec action).toList := by
  cases action with
  | propose version value eligible threshold =>
    rw [step, fixed]
    obtain ⟨id, after, hp, hnone, hvalue, hc⟩ | ⟨e, hp⟩ :=
      agreement.propose_cases κ toVec version value eligible threshold
    · have hafter : after.proposal = some ⟨id, value⟩ :=
        proposal_eq_some.2 ⟨hc.proposal, hvalue⟩
      have hbefore : agreement.proposal = none := by simp [proposal, hnone]
      rw [hp, hbefore]
      exact congrArg Option.toList hafter
    · rw [hp]
      exact (List.append_nil _).symm
  | vote p id v =>
    rw [step, fixed]
    exact (congrArg Option.toList (agreement.proposal_vote p id v)).trans
      (List.append_nil _).symm

theorem proposal_run (agreement : Agreement T) (actions : List (Action T)) :
    (agreement.run κ toVec actions).proposal.toList =
      agreement.proposal.toList ++ agreement.proposals κ toVec actions := by
  induction actions generalizing agreement with
  | nil => exact (List.append_nil _).symm
  | cons action actions ih =>
    have hrest := ih (agreement.step κ toVec action).2
    rw [proposal_step, List.append_assoc] at hrest
    exact hrest

theorem proposals_default (κ : Primitives) (toVec : T → Option Bytes)
    (actions : List (Action T)) :
    proposals κ toVec default actions = (run κ toVec default actions).proposal.toList :=
  ((default : Agreement T).proposal_run actions).symm

/-- What an agreement shows as accepted is the one proposal fixed along its run. -/
theorem accepted_run (κ : Primitives) (toVec : T → Option Bytes) (actions : List (Action T))
    (ref : ProposalRef T) :
    (run κ toVec default actions).accepted = some ref ↔
      (run κ toVec default actions).status = .accepted ∧
        proposals κ toVec default actions = [ref] := by
  rw [accepted, proposals_default]
  split
  next h => simp [h]
  next h => simp [h]

theorem length_proposals_le (κ : Primitives) (toVec : T → Option Bytes)
    (actions : List (Action T)) : (proposals κ toVec default actions).length ≤ 1 := by
  rw [proposals_default]
  cases (run κ toVec default actions).proposal with
  | none => exact Nat.zero_le 1
  | some ref => exact le_rfl

theorem run_of_closed (hp : agreement.ballot.proposal = some id) (h : agreement.ballot.Closed)
    (actions : List (Action T)) : agreement.run κ toVec actions = agreement := by
  obtain ⟨hv, hb⟩ := run_of_started (κ := κ) hp actions
  exact Agreement.ext hv (hb.trans (h.castAll _))

theorem run_of_propose {version : UInt32} {value : T} {eligible : List Participant}
    {threshold : UInt16} {after : Agreement T}
    (h : agreement.propose κ toVec version value eligible threshold = (.ok id, after))
    {assignment : Participant → Vote} {actions : List (Action T)}
    (hcomplete : Ballot.Complete eligible assignment (castsFor id actions)) :
    (after.run κ toVec actions).status = Ballot.fullVote eligible threshold assignment ∧
      (after.run κ toVec actions).accepted =
        (if Ballot.fullVote eligible threshold assignment = .accepted then some ⟨id, value⟩
          else none) ∧
      ∀ late, after.run κ toVec (actions ++ late) = after.run κ toVec actions := by
  obtain ⟨id', after', hok, -, hvalue, hc⟩ | ⟨e, herr⟩ :=
    agreement.propose_cases κ toVec version value eligible threshold
  · obtain ⟨hid, rfl⟩ := Prod.mk.inj (h.symm.trans hok)
    cases hid
    obtain ⟨hv, hb⟩ := run_of_started (κ := κ) hc.proposal actions
    have hp : (after.run κ toVec actions).ballot.proposal = some id := by
      rw [hb, (after.ballot.castAll_fixed _).1, hc.proposal]
    have hstatus : (after.run κ toVec actions).status =
        Ballot.fullVote eligible threshold assignment := by
      rw [status, hb]
      exact hc.castAll hcomplete
    have hprop : (after.run κ toVec actions).proposal = some ⟨id, value⟩ :=
      proposal_eq_some.2 ⟨hp, hv.trans hvalue⟩
    refine ⟨hstatus, ?_, fun late => ?_⟩
    · rw [accepted, hstatus, hprop]
    · rw [run, List.foldl_append]
      exact run_of_closed hp (Ballot.closed_of_fullVote hstatus) late
  · rw [herr] at h
    cases (Prod.mk.inj h).1

/-- Every complete run of calls ends in the decision of the full vote, shows the
proposal as accepted exactly when that decision accepts it, and stays there. -/
def DecidesFullVote (κ : Primitives) (toVec : T → Option Bytes) (agreement : Agreement T)
    (ref : ProposalRef T) (eligible : List Participant) (threshold : UInt16) : Prop :=
  ∀ assignment actions, Ballot.Complete eligible assignment (castsFor ref.id actions) →
    (agreement.run κ toVec actions).status = Ballot.fullVote eligible threshold assignment ∧
      (agreement.run κ toVec actions).accepted =
        (if Ballot.fullVote eligible threshold assignment = .accepted then some ref
          else none) ∧
      ∀ late, agreement.run κ toVec (actions ++ late) = agreement.run κ toVec actions

end Agreement

/-- Ballots and agreements decide every run of votes as the full vote would: in
any order, with refused votes in between, exactly in `u16`, and finally. -/
theorem ballots_decide_full_vote {T : Type} (κ : Primitives) (toVec : T → Option Bytes) :
    (∀ proposal eligible threshold, proposal.version ≠ 0 → eligible.Nodup →
      1 ≤ threshold.toNat → threshold.toNat ≤ eligible.length →
      ∃ ballot, Ballot.new proposal eligible threshold = .ok ballot ∧
        ballot.DecidesFullVote eligible threshold) ∧
    (∀ ballot : Ballot, ballot.Closed → ∀ casts, ballot.castAll casts = ballot) ∧
    (∀ ballot : Ballot, ballot.Exact) ∧
    (∀ (ballot : Ballot) p v e, (ballot.cast p v).1 = .error e →
      (ballot.cast p v).2 = ballot) ∧
    (∀ (agreement : Agreement T) version value encoded eligible threshold,
      agreement.ballot.proposal = none → toVec value = some encoded → version ≠ 0 →
      eligible.Nodup → 1 ≤ threshold.toNat → threshold.toNat ≤ eligible.length →
      ∃ id after,
        agreement.propose κ toVec version value eligible threshold = (.ok id, after) ∧
          after.DecidesFullVote κ toVec ⟨id, value⟩ eligible threshold) ∧
    (∀ (agreement : Agreement T) action e, (agreement.step κ toVec action).1 = .error e →
      (agreement.step κ toVec action).2 = agreement) ∧
    (∀ actions, (Agreement.proposals κ toVec default actions).length ≤ 1 ∧
      ∀ ref, (Agreement.run κ toVec default actions).accepted = some ref ↔
        (Agreement.run κ toVec default actions).status = .accepted ∧
          Agreement.proposals κ toVec default actions = [ref]) := by
  refine ⟨?_, ?_, Ballot.exact, ?_, ?_, ?_, ?_⟩
  · intro proposal eligible threshold hv hn h₁ h₂
    obtain ⟨ballot, hnew⟩ := Ballot.exists_new hv hn h₁ h₂
    exact ⟨ballot, hnew, (Ballot.new_configured hnew).decides⟩
  · intro ballot h casts
    exact h.castAll casts
  · intro ballot p v e h
    exact Ballot.cast_error h
  · intro agreement version value encoded eligible threshold hp henc hv hn h₁ h₂
    obtain ⟨id, hid⟩ := Agreement.exists_propose hp henc hv hn h₁ h₂
    refine ⟨id, (agreement.propose κ toVec version value eligible threshold).2,
      Prod.ext hid rfl, ?_⟩
    intro assignment actions hcomplete
    exact Agreement.run_of_propose (Prod.ext hid rfl) hcomplete
  · intro agreement action e h
    exact Agreement.step_error h
  · intro actions
    exact ⟨Agreement.length_proposals_le κ toVec actions,
      Agreement.accepted_run κ toVec actions⟩

/-- Three voters, two of which accept; one of them repeats itself, an outsider
votes, and the last vote comes after the result. -/
def Sample.casts : List (Participant × Vote) :=
  [(1, .accept), (7, .accept), (1, .reject), (0, .accept), (2, .reject)]

def Sample.assignment (p : Participant) : Vote := if p = 2 then .reject else .accept

open Sample in
theorem ballots_decide_full_vote_three :
    ∃ ballot, Ballot.new ⟨1, 0⟩ [2, 0, 1] 2 = .ok ballot ∧
      (ballot.castAll casts).tally.status = .accepted ∧
      (ballot.castAll casts).castAll [(2, .reject)] = ballot.castAll casts := by
  have h := ballots_decide_full_vote referencePrimitives (fun n : UInt32 => Codec.u32.toVec n)
  obtain ⟨ballot, hnew, hd⟩ := h.1 ⟨1, 0⟩ [2, 0, 1] 2 (by decide) (by decide) (by decide)
    (by decide)
  have hstatus : (ballot.castAll casts).tally.status = .accepted :=
    (hd assignment casts (by decide +kernel)).1
  exact ⟨ballot, hnew, hstatus, h.2.1 _ (.inl hstatus) _⟩

end Arena0
