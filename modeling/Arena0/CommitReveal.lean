import Arena0.Ballots

/-!
# Commit-reveal

Every participant commits to a value under a random salt; once all commitments
are in, every participant reveals its opening.  The shared state holds one slot
per participant for the commitment and one for the value, and each participant
keeps its opening in a local stash that remembers for which round it was made.

The commitment hash is a parameter; `computeHash` is the one of the source.
-/

namespace Arena0

open Borsh Fallible

abbrev Salt := FixedBytes 32
abbrev Commitment := FixedBytes 32

/-- The commitment to a value: the hash of its Borsh bytes and the salt. -/
def computeHash (κ : Primitives) {T : Type} (encode : T → Bytes) (value : T) (salt : Salt) :
    Commitment :=
  κ.blake3 (encode value ++ salt.bytes)

inductive CommitMessage (T : Type) where
  | commit (hash : Commitment)
  | reveal (value : T) (salt : Salt)

inductive CommitPhase where
  | idle | revealing | complete
  deriving DecidableEq

inductive CommitRevealError where
  | tooFewParticipants
  | tooManyParticipants
  | unknownParticipant (index : ℕ)
  | roundAlreadyStarted
  | unexpectedCommit
  | duplicateCommit
  | revealBeforeCommit
  | duplicateReveal
  | hashMismatch
  | alreadyCommitted
  | resetBeforeComplete
  deriving DecidableEq

/-- The opening a participant keeps for itself, with the rounds it was used in. -/
structure CommitRevealLocal (T : Type) where
  value : Option T
  salt : Option Salt
  committedRound : Option UInt32
  revealedRound : Option UInt32

instance {T : Type} : Inhabited (CommitRevealLocal T) := ⟨⟨none, none, none, none⟩⟩

/-- The shared state: a slot for the commitment and one for the value of every participant. -/
@[ext] structure CommitReveal (T : Type) where
  phase : CommitPhase
  round : UInt32
  hashes : List (Option Commitment)
  values : List (Option T)
  aligned : values.length = hashes.length

namespace CommitReveal

variable {T : Type} {l : List (Participant × CommitMessage T)} {msg : CommitMessage T}

def fresh (T : Type) (round : UInt32) (participantCount : ℕ) : CommitReveal T where
  phase := .idle
  round := round
  hashes := List.replicate participantCount none
  values := List.replicate participantCount none
  aligned := by rw [List.length_replicate, List.length_replicate]

/-- Two participants, unless configured otherwise. -/
instance : Inhabited (CommitReveal T) := ⟨fresh T 0 2⟩

def setParticipantCount (cr : CommitReveal T) (participantCount : ℕ) :
    Except CommitRevealError Unit × CommitReveal T :=
  if participantCount < 2 then (.error .tooFewParticipants, cr)
  else if 255 < participantCount then (.error .tooManyParticipants, cr)
  else if cr.phase ≠ .idle ∨ cr.hashes.any (·.isSome) = true then
    (.error .roundAlreadyStarted, cr)
  else
    (.ok (), { fresh T cr.round participantCount with phase := cr.phase })

def hashOf (cr : CommitReveal T) (p : Participant) : Option Commitment :=
  cr.hashes.getD p.val none

def valueOf (cr : CommitReveal T) (p : Participant) : Option T :=
  cr.values.getD p.val none

def reset (cr : CommitReveal T) : Except CommitRevealError Unit × CommitReveal T :=
  if cr.phase ≠ .complete then (.error .resetBeforeComplete, cr)
  else (.ok (), fresh T (cr.round + 1) cr.hashes.length)

def needsCommit (cr : CommitReveal T) (stash : CommitRevealLocal T) : Bool :=
  cr.phase = .idle && stash.committedRound ≠ some cr.round

def allValues (cr : CommitReveal T) : Option (List T) :=
  if cr.phase = .complete then cr.values.mapM id else none

/-- Put a commitment into its slot; the last one starts the reveals. -/
def putHash (cr : CommitReveal T) (p : Participant) (hash : Commitment) : CommitReveal T :=
  { cr with
    hashes := cr.hashes.set p.val (some hash)
    phase := if (cr.hashes.set p.val (some hash)).all (·.isSome) = true then .revealing
      else cr.phase
    aligned := by rw [List.length_set, cr.aligned] }

/-- Put a value into its slot; the last one completes the round. -/
def putValue (cr : CommitReveal T) (p : Participant) (value : T) : CommitReveal T :=
  { cr with
    values := cr.values.set p.val (some value)
    phase := if (cr.values.set p.val (some value)).all (·.isSome) = true then .complete
      else cr.phase
    aligned := by rw [List.length_set, cr.aligned] }

section

variable (hash : T → Salt → Commitment)

def commitWithSalt (cr : CommitReveal T) (stash : CommitRevealLocal T) (value : T) (salt : Salt) :
    Except CommitRevealError (CommitMessage T) × CommitRevealLocal T :=
  if stash.committedRound = some cr.round then (.error .alreadyCommitted, stash)
  else
    (.ok (.commit (hash value salt)),
      { stash with value := some value, salt := some salt, committedRound := some cr.round })

/-- Apply a message of the authenticated sender; its slot is in bounds once it is known. -/
def handle (cr : CommitReveal T) (source : Participant) (msg : CommitMessage T) :
    Except CommitRevealError Unit × CommitReveal T :=
  if cr.hashes.length ≤ source.val then (.error (.unknownParticipant source), cr)
  else
    match msg with
    | .commit committed =>
      if cr.phase ≠ .idle then (.error .unexpectedCommit, cr)
      else if (cr.hashOf source).isSome = true then (.error .duplicateCommit, cr)
      else (.ok (), cr.putHash source committed)
    | .reveal value salt =>
      if cr.phase ≠ .revealing then (.error .revealBeforeCommit, cr)
      else if (cr.valueOf source).isSome = true then (.error .duplicateReveal, cr)
      else
        match cr.hashOf source with
        | none => (.error .revealBeforeCommit, cr)
        | some committed =>
          if hash value salt ≠ committed then (.error .hashMismatch, cr)
          else (.ok (), cr.putValue source value)

end

/-- The reveal owed in this round, taken once from the stash. -/
def takeReveal (cr : CommitReveal T) (stash : CommitRevealLocal T) :
    Option (CommitMessage T) × CommitRevealLocal T :=
  if cr.phase ≠ .revealing ∨ stash.committedRound ≠ some cr.round ∨
      stash.revealedRound = some cr.round then (none, stash)
  else
    match stash.value, stash.salt with
    | some value, some salt =>
      (some (.reveal value salt), { stash with revealedRound := some cr.round })
    | _, _ => (none, stash)

/-! ## Slots -/

section

variable {cr : CommitReveal T} {p q : Participant} {committed : Commitment} {value : T}

theorem hashOf_putHash (h : p.val < cr.hashes.length) (committed : Commitment) :
    (cr.putHash p committed).hashOf = Function.update cr.hashOf p (some committed) := by
  funext q
  by_cases hq : q = p
  · rw [hq, Function.update_self]
    simp [hashOf, putHash, h]
  · have hne : p.val ≠ q.val := fun heq => hq (Fin.ext heq.symm)
    rw [Function.update_of_ne hq]
    simp [hashOf, putHash, List.getElem?_set_ne hne]

theorem valueOf_putValue (h : p.val < cr.hashes.length) (value : T) :
    (cr.putValue p value).valueOf = Function.update cr.valueOf p (some value) := by
  rw [← cr.aligned] at h
  funext q
  by_cases hq : q = p
  · rw [hq, Function.update_self]
    simp [valueOf, putValue, h]
  · have hne : p.val ≠ q.val := fun heq => hq (Fin.ext heq.symm)
    rw [Function.update_of_ne hq]
    simp [valueOf, putValue, List.getElem?_set_ne hne]

@[simp] theorem valueOf_putHash : (cr.putHash p committed).valueOf = cr.valueOf := rfl
@[simp] theorem hashOf_putValue : (cr.putValue p value).hashOf = cr.hashOf := rfl

@[simp] theorem length_putHash :
    (cr.putHash p committed).hashes.length = cr.hashes.length := List.length_set

@[simp] theorem hashOf_fresh (round : UInt32) (n : ℕ) : (fresh T round n).hashOf p = none := by
  simp only [hashOf, fresh, List.getD_eq_getElem?_getD, List.getElem?_replicate]
  split <;> rfl

@[simp] theorem valueOf_fresh (round : UInt32) (n : ℕ) : (fresh T round n).valueOf p = none := by
  simp only [valueOf, fresh, List.getD_eq_getElem?_getD, List.getElem?_replicate]
  split <;> rfl

private theorem all_isSome_iff {α : Type} {l : List (Option α)} (hl : l.length ≤ 256) :
    l.all (·.isSome) = true ↔ ∀ p : Participant, p.val < l.length → l.getD p.val none ≠ none := by
  rw [List.all_eq_true]
  constructor
  · intro h p hp hnone
    have hmem := h l[p.val] (List.getElem_mem hp)
    rw [List.getD_eq_getElem?_getD, List.getElem?_eq_getElem hp, Option.getD_some] at hnone
    rw [hnone] at hmem
    cases hmem
  · intro h slot hslot
    obtain ⟨i, hi, rfl⟩ := List.getElem_of_mem hslot
    have hne := h ⟨i, by omega⟩ hi
    rw [List.getD_eq_getElem?_getD, List.getElem?_eq_getElem hi, Option.getD_some] at hne
    exact Option.isSome_iff_ne_none.2 hne

theorem phase_putHash (cr : CommitReveal T) (p : Participant) (committed : Commitment)
    (h : cr.hashes.length ≤ 256) :
    (cr.putHash p committed).phase =
      if ∀ q : Participant, q.val < cr.hashes.length → (cr.putHash p committed).hashOf q ≠ none
      then .revealing else cr.phase := by
  have hall := all_isSome_iff (l := (cr.putHash p committed).hashes)
    (by rw [length_putHash]; exact h)
  rw [length_putHash] at hall
  simp only [putHash] at hall ⊢
  exact if_congr hall rfl rfl

theorem phase_putValue (cr : CommitReveal T) (p : Participant) (value : T)
    (h : cr.hashes.length ≤ 256) :
    (cr.putValue p value).phase =
      if ∀ q : Participant, q.val < cr.hashes.length → (cr.putValue p value).valueOf q ≠ none
      then .complete else cr.phase := by
  have hlength : (cr.putValue p value).values.length = cr.hashes.length := by
    rw [← cr.aligned]
    exact List.length_set
  have hall := all_isSome_iff (l := (cr.putValue p value).values) (by rw [hlength]; exact h)
  rw [hlength] at hall
  simp only [putValue] at hall ⊢
  exact if_congr hall rfl rfl

end

/-! ## One message -/

section

variable {hash : T → Salt → Commitment} {cr : CommitReveal T} {p : Participant}

/-- A commitment is taken from a participant that has not committed in this round. -/
def TakesCommit (cr : CommitReveal T) (p : Participant) : Prop :=
  p.val < cr.hashes.length ∧ cr.phase = .idle ∧ cr.hashOf p = none

/-- A reveal is taken from a participant that has not revealed, when it opens its commitment. -/
def TakesReveal (hash : T → Salt → Commitment) (cr : CommitReveal T) (p : Participant) (value : T)
    (salt : Salt) : Prop :=
  p.val < cr.hashes.length ∧ cr.phase = .revealing ∧ cr.valueOf p = none ∧
    cr.hashOf p = some (hash value salt)

private theorem handle_commit (h : cr.TakesCommit p) (committed : Commitment) :
    cr.handle hash p (.commit committed) = (.ok (), cr.putHash p committed) := by
  obtain ⟨hlt, hphase, hnone⟩ := h
  simp [handle, Nat.not_le.2 hlt, hphase, hnone]

theorem handle_reveal {value : T} {salt : Salt} (h : cr.TakesReveal hash p value salt) :
    cr.handle hash p (.reveal value salt) = (.ok (), cr.putValue p value) := by
  obtain ⟨hlt, hphase, hnone, hhash⟩ := h
  simp [handle, Nat.not_le.2 hlt, hphase, hnone, hhash]

private theorem handle_commit_refused (h : ¬ cr.TakesCommit p) (committed : Commitment) :
    ∃ e, cr.handle hash p (.commit committed) = (.error e, cr) := by
  unfold handle
  split
  · exact ⟨_, rfl⟩
  next hlt =>
    dsimp only
    split
    · exact ⟨_, rfl⟩
    next hphase =>
      split
      · exact ⟨_, rfl⟩
      next hsome =>
        exact absurd ⟨Nat.not_le.1 hlt, not_not.1 hphase, by simpa using hsome⟩ h

private theorem handle_reveal_refused {value : T} {salt : Salt}
    (h : ¬ cr.TakesReveal hash p value salt) :
    ∃ e, cr.handle hash p (.reveal value salt) = (.error e, cr) := by
  unfold handle
  split
  · exact ⟨_, rfl⟩
  next hlt =>
    dsimp only
    split
    · exact ⟨_, rfl⟩
    next hphase =>
      split
      · exact ⟨_, rfl⟩
      next hsome =>
        split
        · exact ⟨_, rfl⟩
        next committed hhash =>
          split
          · exact ⟨_, rfl⟩
          next heq =>
            refine absurd ⟨Nat.not_le.1 hlt, not_not.1 hphase, by simpa using hsome, ?_⟩ h
            rw [hhash, not_not.1 heq]

/-- What a message does: it fills its slot, or it is refused without a trace. -/
theorem handle_cases (hash : T → Salt → Commitment) (cr : CommitReveal T) (p : Participant)
    (msg : CommitMessage T) :
    (∃ committed, msg = .commit committed ∧ cr.TakesCommit p ∧
        cr.handle hash p msg = (.ok (), cr.putHash p committed)) ∨
      (∃ value salt, msg = .reveal value salt ∧ cr.TakesReveal hash p value salt ∧
        cr.handle hash p msg = (.ok (), cr.putValue p value)) ∨
      ∃ e, cr.handle hash p msg = (.error e, cr) := by
  cases msg with
  | commit committed =>
    by_cases h : cr.TakesCommit p
    · exact .inl ⟨committed, rfl, h, handle_commit h committed⟩
    · exact .inr (.inr (handle_commit_refused h committed))
  | reveal value salt =>
    by_cases h : cr.TakesReveal hash p value salt
    · exact .inr (.inl ⟨value, salt, rfl, h, handle_reveal h⟩)
    · exact .inr (.inr (handle_reveal_refused h))

end

/-! ## Whole runs -/

/-- The shared state of a run among `n` participants. -/
structure Valid (hash : T → Salt → Commitment) (n : ℕ) (cr : CommitReveal T) : Prop where
  bounds : 2 ≤ n ∧ n ≤ 255
  length : cr.hashes.length = n
  idle : cr.phase = .idle ↔ ∃ p : Participant, p.val < n ∧ cr.hashOf p = none
  complete : cr.phase = .complete ↔ ∀ p : Participant, p.val < n → cr.valueOf p ≠ none
  untouched : cr.phase = .idle → ∀ p, cr.valueOf p = none
  opened : ∀ p value, cr.valueOf p = some value → ∃ salt, cr.hashOf p = some (hash value salt)

namespace Valid

variable {hash : T → Salt → Commitment} {n : ℕ} {cr : CommitReveal T} {p : Participant}

theorem revealing (h : cr.Valid hash n) :
    cr.phase = .revealing ↔ (∀ p : Participant, p.val < n → cr.hashOf p ≠ none) ∧
      ∃ p : Participant, p.val < n ∧ cr.valueOf p = none := by
  have hidle := h.idle
  have hcomplete := h.complete
  constructor
  · intro hphase
    rw [hphase] at hidle hcomplete
    refine ⟨fun p hp hnone => ?_, ?_⟩
    · cases hidle.2 ⟨p, hp, hnone⟩
    · by_contra hall
      push Not at hall
      cases hcomplete.2 hall
  · rintro ⟨hhashes, p, hp, hnone⟩
    cases hphase : cr.phase with
    | idle =>
      obtain ⟨q, hq, hmissing⟩ := hidle.1 hphase
      exact absurd hmissing (hhashes q hq)
    | revealing => rfl
    | complete => exact absurd hnone (hcomplete.1 hphase p hp)

theorem fresh (hash : T → Salt → Commitment) (round : UInt32) (hn : 2 ≤ n ∧ n ≤ 255) :
    (CommitReveal.fresh T round n).Valid hash n where
  bounds := hn
  length := List.length_replicate
  idle := ⟨fun _ => ⟨0, by simp; omega, hashOf_fresh _ _⟩, fun _ => rfl⟩
  complete := ⟨nofun, fun h => absurd (valueOf_fresh _ _) (h 0 (by simp; omega))⟩
  untouched := fun _ _ => valueOf_fresh _ _
  opened := by simp

theorem putHash (h : cr.Valid hash n) (ht : cr.TakesCommit p) (committed : Commitment) :
    (cr.putHash p committed).Valid hash n := by
  obtain ⟨hlt, hphase, hnone⟩ := ht
  have hle := h.bounds.2
  have hlen := h.length
  have hupdate := hashOf_putHash hlt committed
  have hvalues := h.untouched hphase
  have hnewphase := cr.phase_putHash p committed (by omega)
  rw [hlen, hphase] at hnewphase
  refine ⟨h.bounds, by rw [length_putHash, hlen], ?_, ?_, fun _ q => ?_, fun q value hq => ?_⟩
  · by_cases hall : ∀ q : Participant, q.val < n → (cr.putHash p committed).hashOf q ≠ none
    · rw [hnewphase, if_pos hall]
      refine ⟨nofun, ?_⟩
      rintro ⟨q, hq, hmissing⟩
      exact absurd hmissing (hall q hq)
    · rw [hnewphase, if_neg hall]
      push Not at hall
      exact ⟨fun _ => hall, fun _ => rfl⟩
  · constructor
    · intro hcomplete
      rw [hnewphase] at hcomplete
      split at hcomplete <;> cases hcomplete
    · intro hall
      exact absurd (hvalues p) (hall p (hlen ▸ hlt))
  · exact hvalues q
  · rw [valueOf_putHash, hvalues q] at hq
    cases hq

theorem putValue {value : T} {salt : Salt} (h : cr.Valid hash n)
    (ht : cr.TakesReveal hash p value salt) : (cr.putValue p value).Valid hash n := by
  obtain ⟨hlt, hphase, hnone, hhash⟩ := ht
  have hle := h.bounds.2
  have hlen := h.length
  have hupdate := valueOf_putValue hlt value
  obtain ⟨hhashes, -⟩ := h.revealing.1 hphase
  have hnewphase := cr.phase_putValue p value (by omega)
  rw [hlen, hphase] at hnewphase
  have hidle : (cr.putValue p value).phase ≠ .idle := by
    rw [hnewphase]
    split <;> exact nofun
  refine ⟨h.bounds, hlen, ?_, ?_, fun hphase' => absurd hphase' hidle, fun q v hq => ?_⟩
  · refine ⟨fun hphase' => absurd hphase' hidle, ?_⟩
    rintro ⟨q, hq, hmissing⟩
    exact absurd hmissing (hhashes q hq)
  · by_cases hall : ∀ q : Participant, q.val < n → (cr.putValue p value).valueOf q ≠ none
    · rw [hnewphase, if_pos hall]
      exact ⟨fun _ => hall, fun _ => rfl⟩
    · rw [hnewphase, if_neg hall]
      exact ⟨nofun, fun h' => absurd h' hall⟩
  · rw [hashOf_putValue]
    rw [hupdate] at hq
    by_cases hqp : q = p
    · rw [hqp, Function.update_self] at hq
      cases hq
      rw [hqp]
      exact ⟨salt, hhash⟩
    · rw [Function.update_of_ne hqp] at hq
      exact h.opened q v hq

private theorem handle (h : cr.Valid hash n) (p : Participant) (msg : CommitMessage T) :
    (cr.handle hash p msg).2.Valid hash n := by
  obtain ⟨committed, -, ht, heq⟩ | ⟨value, salt, -, ht, heq⟩ | ⟨e, heq⟩ :=
    cr.handle_cases hash p msg
  · rw [heq]
    exact h.putHash ht committed
  · rw [heq]
    exact h.putValue ht
  · rw [heq]
    exact h

end Valid

inductive Call (T : Type) where
  | handle (source : Participant) (msg : CommitMessage T)
  | reset

/-- The shared state with the messages accepted in its round. -/
structure Progress (T : Type) where
  shared : CommitReveal T
  log : List (Participant × CommitMessage T)

/-- One call: an accepted message is logged, an accepted reset starts a new log. -/
def Progress.step (hash : T → Salt → Commitment) (s : Progress T) : Call T → Progress T
  | .handle source msg =>
    match s.shared.handle hash source msg with
    | (.ok (), shared) => ⟨shared, s.log ++ [(source, msg)]⟩
    | (.error _, shared) => ⟨shared, s.log⟩
  | .reset =>
    match s.shared.reset with
    | (.ok (), shared) => ⟨shared, []⟩
    | (.error _, shared) => ⟨shared, s.log⟩

def Progress.run (hash : T → Salt → Commitment) (s : Progress T) (calls : List (Call T)) :
    Progress T :=
  calls.foldl (fun s call => s.step hash call) s

/-- The slots hold what was accepted in this round, and every reveal opened the
commitment of its slot. -/
structure Progress.Sound (hash : T → Salt → Commitment) (n : ℕ) (s : Progress T) : Prop where
  valid : s.shared.Valid hash n
  hashes : ∀ p committed, s.shared.hashOf p = some committed ↔ (p, .commit committed) ∈ s.log
  values : ∀ p value, s.shared.valueOf p = some value ↔ ∃ salt, (p, .reveal value salt) ∈ s.log
  opens : ∀ p value salt, (p, .reveal value salt) ∈ s.log →
    s.shared.hashOf p = some (hash value salt)

namespace Progress.Sound

variable {hash : T → Salt → Commitment} {n : ℕ} {s : Progress T} {p : Participant}

theorem fresh (hash : T → Salt → Commitment) {n : ℕ} (hn : 2 ≤ n ∧ n ≤ 255) (round : UInt32) :
    Sound hash n ⟨CommitReveal.fresh T round n, []⟩ :=
  ⟨.fresh hash round hn, by simp, by simp, by simp⟩

theorem putHash (h : s.Sound hash n) (ht : s.shared.TakesCommit p) (committed : Commitment) :
    Sound hash n ⟨s.shared.putHash p committed, s.log ++ [(p, .commit committed)]⟩ := by
  have hupdate := hashOf_putHash ht.1 committed
  refine ⟨h.valid.putHash ht committed, fun q c => ?_, fun q v => ?_, fun q v salt hmem => ?_⟩
  · rw [hupdate, List.mem_append, ← h.hashes, List.mem_singleton]
    by_cases hq : q = p
    · rw [hq, Function.update_self, ht.2.2]
      simp [eq_comm]
    · simp [hq]
  · rw [valueOf_putHash, h.values]
    simp
  · -- no reveal is logged before the commitments are in
    have hold : (q, .reveal v salt) ∈ s.log := by simpa using hmem
    have hvalue := (h.values q v).2 ⟨salt, hold⟩
    rw [h.valid.untouched ht.2.1 q] at hvalue
    cases hvalue

theorem putValue {value : T} {salt : Salt} (h : s.Sound hash n)
    (ht : s.shared.TakesReveal hash p value salt) :
    Sound hash n ⟨s.shared.putValue p value, s.log ++ [(p, .reveal value salt)]⟩ := by
  have hupdate := valueOf_putValue ht.1 value
  refine ⟨h.valid.putValue ht, fun q c => ?_, fun q v => ?_, fun q v salt' hmem => ?_⟩
  · rw [hashOf_putValue, h.hashes]
    simp
  · rw [hupdate]
    by_cases hq : q = p
    · have hnone : ∀ v salt', (p, .reveal v salt') ∉ s.log := by
        intro v salt' hmem
        have hvalue := (h.values p v).2 ⟨salt', hmem⟩
        rw [ht.2.2.1] at hvalue
        cases hvalue
      rw [hq, Function.update_self]
      simp [hnone, eq_comm]
    · rw [Function.update_of_ne hq, h.values]
      simp [hq]
  · rw [hashOf_putValue]
    rcases List.mem_append.1 hmem with hmem | hmem
    · exact h.opens q v salt' hmem
    · obtain ⟨rfl, hreveal⟩ := Prod.mk.inj (List.mem_singleton.1 hmem)
      obtain ⟨rfl, rfl⟩ := CommitMessage.reveal.inj hreveal
      exact ht.2.2.2

theorem step (h : s.Sound hash n) (call : Call T) : (s.step hash call).Sound hash n := by
  cases call with
  | handle source msg =>
    obtain ⟨committed, rfl, ht, heq⟩ | ⟨value, salt, rfl, ht, heq⟩ | ⟨e, heq⟩ :=
      s.shared.handle_cases hash source msg
    · rw [Progress.step, heq]
      exact h.putHash ht committed
    · rw [Progress.step, heq]
      exact h.putValue ht
    · rw [Progress.step, heq]
      exact h
  | reset =>
    by_cases hphase : s.shared.phase = .complete
    · rw [Progress.step, CommitReveal.reset, if_neg (not_not.2 hphase), h.valid.length]
      exact .fresh hash h.valid.bounds _
    · rw [Progress.step, CommitReveal.reset, if_pos hphase]
      exact h

theorem run (h : s.Sound hash n) (calls : List (Call T)) : (s.run hash calls).Sound hash n := by
  induction calls generalizing s with
  | nil => exact h
  | cons call calls ih => exact ih (h.step call)

end Progress.Sound

/-! ## Order of messages -/

def sendAll (hash : T → Salt → Commitment) (cr : CommitReveal T)
    (messages : List (Participant × CommitMessage T)) : CommitReveal T :=
  messages.foldl (fun cr m => (cr.handle hash m.1 m.2).2) cr

def commits (cs : List (Participant × Commitment)) : List (Participant × CommitMessage T) :=
  cs.map fun c => (c.1, .commit c.2)

def reveals (rs : List (Participant × T × Salt)) : List (Participant × CommitMessage T) :=
  rs.map fun r => (r.1, .reveal r.2.1 r.2.2)

section

variable {hash : T → Salt → Commitment} {n : ℕ} {cr cr' : CommitReveal T}

theorem Valid.ext_slots (h : cr.Valid hash n) (h' : cr'.Valid hash n) (hround : cr.round = cr'.round)
    (hhash : ∀ p : Participant, p.val < n → cr.hashOf p = cr'.hashOf p)
    (hvalue : ∀ p : Participant, p.val < n → cr.valueOf p = cr'.valueOf p) : cr = cr' := by
  have hslots : ∀ {α : Type} {l l' : List (Option α)}, l.length = n → l'.length = n →
      (∀ p : Participant, p.val < n → l.getD p.val none = l'.getD p.val none) → l = l' := by
    intro α l l' hl hl' hget
    refine List.ext_getElem (hl.trans hl'.symm) fun i hi hi' => ?_
    have hle := h.bounds.2
    have := hget ⟨i, by omega⟩ (by simp; omega)
    simpa [List.getD_eq_getElem?_getD, hi, hi'] using this
  have hphase : cr.phase = cr'.phase := by
    have hidle : cr.phase = .idle ↔ cr'.phase = .idle := by
      rw [h.idle, h'.idle]
      exact exists_congr fun p => and_congr_right fun hp => by rw [hhash p hp]
    have hcomplete : cr.phase = .complete ↔ cr'.phase = .complete := by
      rw [h.complete, h'.complete]
      exact forall_congr' fun p => imp_congr_right fun hp => by rw [hvalue p hp]
    cases hp : cr.phase <;> cases hp' : cr'.phase <;> simp_all
  exact CommitReveal.ext hphase hround (hslots h.length h'.length hhash)
    (hslots (cr.aligned.trans h.length) (cr'.aligned.trans h'.length) hvalue)

section

variable {α β : Type} {slot after : Participant → Option β} {c : Participant × α}
  {cs : List (Participant × α)} {value : β} {f : Participant × α → β}

theorem missing_cons (hnew : c.1 ∉ cs.map (·.1))
    (h : ∀ p, p ∈ (c :: cs).map (·.1) ↔ p.val < n ∧ slot p = none) (p : Participant) :
    p ∈ cs.map (·.1) ↔ p.val < n ∧ Function.update slot c.1 (some value) p = none := by
  by_cases hp : p = c.1
  · rw [hp, Function.update_self]
    simp [hnew]
  · rw [Function.update_of_ne hp, ← h, List.map_cons, List.mem_cons]
    simp [hp]

theorem filled_cons (hnew : c.1 ∉ cs.map (·.1))
    (hother : ∀ p ∉ cs.map (·.1), after p = Function.update slot c.1 (some (f c)) p)
    (hset : ∀ d ∈ cs, after d.1 = some (f d)) :
    (∀ p ∉ (c :: cs).map (·.1), after p = slot p) ∧ ∀ d ∈ c :: cs, after d.1 = some (f d) := by
  refine ⟨fun p hp => ?_, fun d hd => ?_⟩
  · rw [List.map_cons, List.mem_cons, not_or] at hp
    rw [hother p hp.2, Function.update_of_ne hp.1]
  · rcases List.mem_cons.1 hd with rfl | hd
    · rw [hother d.1 hnew, Function.update_self]
    · exact hset d hd

end

theorem Valid.commitAll (h : cr.Valid hash n) {cs : List (Participant × Commitment)}
    (hnodup : (cs.map (·.1)).Nodup)
    (hkeys : ∀ p, p ∈ cs.map (·.1) ↔ p.val < n ∧ cr.hashOf p = none) :
    (cr.sendAll hash (commits cs)).Valid hash n ∧
      (cr.sendAll hash (commits cs)).round = cr.round ∧
      (cr.sendAll hash (commits cs)).valueOf = cr.valueOf ∧
      (∀ p ∉ cs.map (·.1), (cr.sendAll hash (commits cs)).hashOf p = cr.hashOf p) ∧
      ∀ c ∈ cs, (cr.sendAll hash (commits cs)).hashOf c.1 = some c.2 := by
  induction cs generalizing cr with
  | nil => exact ⟨h, rfl, rfl, fun _ _ => rfl, by simp⟩
  | cons c cs ih =>
    rw [List.map_cons, List.nodup_cons] at hnodup
    obtain ⟨hlt, hnone⟩ := (hkeys c.1).1 List.mem_cons_self
    have ht : cr.TakesCommit c.1 :=
      ⟨h.length ▸ hlt, h.idle.2 ⟨c.1, hlt, hnone⟩, hnone⟩
    have hupdate := hashOf_putHash ht.1 c.2
    have hsend : cr.sendAll hash (commits (c :: cs)) =
        (cr.putHash c.1 c.2).sendAll hash (commits cs) := by
      rw [commits, List.map_cons, sendAll, List.foldl_cons, handle_commit ht]
      rfl
    obtain ⟨hvalid, hround, hvalues, hother, hset⟩ := ih (h.putHash ht c.2) hnodup.2
      (hupdate ▸ missing_cons hnodup.1 hkeys)
    rw [hupdate] at hother
    rw [hsend]
    exact ⟨hvalid, hround, hvalues, filled_cons (f := (·.2)) hnodup.1 hother hset⟩

theorem Valid.revealAll (h : cr.Valid hash n) {rs : List (Participant × T × Salt)}
    (hnodup : (rs.map (·.1)).Nodup)
    (hkeys : ∀ p, p ∈ rs.map (·.1) ↔ p.val < n ∧ cr.valueOf p = none)
    (hhashes : ∀ p : Participant, p.val < n → cr.hashOf p ≠ none)
    (hopen : ∀ r ∈ rs, cr.hashOf r.1 = some (hash r.2.1 r.2.2)) :
    (cr.sendAll hash (reveals rs)).Valid hash n ∧
      (cr.sendAll hash (reveals rs)).round = cr.round ∧
      (cr.sendAll hash (reveals rs)).hashOf = cr.hashOf ∧
      (∀ p ∉ rs.map (·.1), (cr.sendAll hash (reveals rs)).valueOf p = cr.valueOf p) ∧
      ∀ r ∈ rs, (cr.sendAll hash (reveals rs)).valueOf r.1 = some r.2.1 := by
  induction rs generalizing cr with
  | nil => exact ⟨h, rfl, rfl, fun _ _ => rfl, by simp⟩
  | cons r rs ih =>
    rw [List.map_cons, List.nodup_cons] at hnodup
    obtain ⟨hlt, hnone⟩ := (hkeys r.1).1 List.mem_cons_self
    have ht : cr.TakesReveal hash r.1 r.2.1 r.2.2 :=
      ⟨h.length ▸ hlt, h.revealing.2 ⟨hhashes, r.1, hlt, hnone⟩, hnone,
        hopen r List.mem_cons_self⟩
    have hupdate := valueOf_putValue ht.1 r.2.1
    have hsend : cr.sendAll hash (reveals (r :: rs)) =
        (cr.putValue r.1 r.2.1).sendAll hash (reveals rs) := by
      rw [reveals, List.map_cons, sendAll, List.foldl_cons, handle_reveal ht]
      rfl
    obtain ⟨hvalid, hround, hsame, hother, hset⟩ := ih (h.putValue ht) hnodup.2
      (hupdate ▸ missing_cons hnodup.1 hkeys) hhashes
      (fun d hd => hopen d (List.mem_cons_of_mem _ hd))
    rw [hupdate] at hother
    rw [hsend]
    exact ⟨hvalid, hround, hsame, filled_cons (f := (·.2.1)) hnodup.1 hother hset⟩

end

/-- The commitments of all participants, and the reveals that open them. -/
structure Exchange (hash : T → Salt → Commitment) (n : ℕ) (cs : List (Participant × Commitment))
    (rs : List (Participant × T × Salt)) : Prop where
  committers : (cs.map (·.1)).Nodup
  committed : ∀ p, p ∈ cs.map (·.1) ↔ p.val < n
  revealers : (rs.map (·.1)).Nodup
  revealed : ∀ p, p ∈ rs.map (·.1) ↔ p.val < n
  matching : ∀ r ∈ rs, (r.1, hash r.2.1 r.2.2) ∈ cs

namespace Exchange

variable {hash : T → Salt → Commitment} {n : ℕ} {cs cs' : List (Participant × Commitment)}
  {rs rs' : List (Participant × T × Salt)}

theorem perm (h : Exchange hash n cs rs) (hcs : cs.Perm cs') (hrs : rs.Perm rs') :
    Exchange hash n cs' rs' where
  committers := (hcs.map _).nodup_iff.1 h.committers
  committed p := (hcs.map _).mem_iff.symm.trans (h.committed p)
  revealers := (hrs.map _).nodup_iff.1 h.revealers
  revealed p := (hrs.map _).mem_iff.symm.trans (h.revealed p)
  matching r hr := hcs.mem_iff.1 (h.matching r (hrs.mem_iff.2 hr))

theorem sendAll (h : Exchange hash n cs rs) (hn : 2 ≤ n ∧ n ≤ 255) (round : UInt32) :
    ((fresh T round n).sendAll hash (commits cs ++ reveals rs)).Valid hash n ∧
      ((fresh T round n).sendAll hash (commits cs ++ reveals rs)).round = round ∧
      (∀ c ∈ cs, ((fresh T round n).sendAll hash (commits cs ++ reveals rs)).hashOf c.1 =
        some c.2) ∧
      ∀ r ∈ rs, ((fresh T round n).sendAll hash (commits cs ++ reveals rs)).valueOf r.1 =
        some r.2.1 := by
  obtain ⟨hvalid, hround, hvalues, -, hset⟩ :=
    (Valid.fresh hash round hn).commitAll h.committers (by simp [h.committed])
  have hhashes : ∀ p : Participant, p.val < n →
      ((fresh T round n).sendAll hash (commits cs)).hashOf p ≠ none := by
    intro p hp
    obtain ⟨c, hc, rfl⟩ := List.mem_map.1 ((h.committed p).2 hp)
    rw [hset c hc]
    exact nofun
  obtain ⟨hvalid', hround', hsame, -, hset'⟩ := hvalid.revealAll h.revealers
    (by simp [h.revealed, hvalues]) hhashes fun r hr => hset _ (h.matching r hr)
  rw [CommitReveal.sendAll, List.foldl_append]
  refine ⟨hvalid', hround'.trans hround, fun c hc => ?_, hset'⟩
  exact (congrFun hsame c.1).trans (hset c hc)

/-- The order of the commitments and of the reveals leaves no trace. -/
theorem sendAll_eq (h : Exchange hash n cs rs) (hn : 2 ≤ n ∧ n ≤ 255) (hcs : cs.Perm cs')
    (hrs : rs.Perm rs') (round : UInt32) :
    (fresh T round n).sendAll hash (commits cs ++ reveals rs) =
      (fresh T round n).sendAll hash (commits cs' ++ reveals rs') := by
  obtain ⟨hvalid, hround, hhash, hvalue⟩ := h.sendAll hn round
  obtain ⟨hvalid', hround', hhash', hvalue'⟩ := (h.perm hcs hrs).sendAll hn round
  refine hvalid.ext_slots hvalid' (hround.trans hround'.symm) (fun p hp => ?_) fun p hp => ?_
  · obtain ⟨c, hc, rfl⟩ := List.mem_map.1 ((h.committed p).2 hp)
    rw [hhash c hc, hhash' c (hcs.mem_iff.1 hc)]
  · obtain ⟨r, hr, rfl⟩ := List.mem_map.1 ((h.revealed p).2 hp)
    rw [hvalue r hr, hvalue' r (hrs.mem_iff.1 hr)]

theorem complete (h : Exchange hash n cs rs) (hn : 2 ≤ n ∧ n ≤ 255) (round : UInt32) :
    ((fresh T round n).sendAll hash (commits cs ++ reveals rs)).phase = .complete := by
  obtain ⟨hvalid, -, -, hvalue⟩ := h.sendAll hn round
  refine hvalid.complete.2 fun p hp => ?_
  obtain ⟨r, hr, rfl⟩ := List.mem_map.1 ((h.revealed p).2 hp)
  rw [hvalue r hr]
  exact nofun

end Exchange

/-! ## Honest participants -/

/-- The shared state, the stash of every participant, the messages under way and
the messages emitted in this round. -/
structure Parties (T : Type) where
  shared : CommitReveal T
  stash : Participant → CommitRevealLocal T
  pending : List (Participant × CommitMessage T)
  emitted : List (Participant × CommitMessage T)

inductive Move (T : Type) where
  | commit (p : Participant) (value : T) (salt : Salt)
  | takeReveal (p : Participant)
  | deliver (index : ℕ)
  | reset

namespace Parties

def emit (s : Parties T) (p : Participant) (stash : CommitRevealLocal T) (msg : CommitMessage T) :
    Parties T :=
  { s with
    stash := Function.update s.stash p stash
    pending := s.pending ++ [(p, msg)]
    emitted := s.emitted ++ [(p, msg)] }

/-- One move among `n` participants; a message under way may be applied at any time. -/
def step (hash : T → Salt → Commitment) (n : ℕ) (s : Parties T) : Move T → Parties T
  | .commit p value salt =>
    if n ≤ p.val then s
    else
      match s.shared.commitWithSalt hash (s.stash p) value salt with
      | (.ok msg, stash) => s.emit p stash msg
      | (.error _, _) => s
  | .takeReveal p =>
    if n ≤ p.val then s
    else
      match s.shared.takeReveal (s.stash p) with
      | (some msg, stash) => s.emit p stash msg
      | (none, _) => s
  | .deliver index =>
    match s.pending[index]? with
    | some (p, msg) =>
      { s with shared := (s.shared.handle hash p msg).2, pending := s.pending.eraseIdx index }
    | none => s
  | .reset =>
    match s.shared.reset with
    | (.ok (), shared) => { s with shared := shared, emitted := [] }
    | (.error _, _) => s

def run (hash : T → Salt → Commitment) (n : ℕ) (s : Parties T) (moves : List (Move T)) :
    Parties T :=
  moves.foldl (fun s move => s.step hash n move) s

def start (T : Type) (n : ℕ) : Parties T :=
  ⟨fresh T 0 n, fun _ => default, [], []⟩

/-- Where a participant stands in the current round: what it has emitted, what of it
is under way, and what its slots hold. -/
inductive Stage (hash : T → Salt → Commitment) (s : Parties T) (p : Participant) : Prop where
  | waiting (hcommitted : (s.stash p).committedRound ≠ some s.shared.round)
      (hround : (s.stash p).revealedRound ≠ some s.shared.round)
      (hhash : s.shared.hashOf p = none) (hvalue : s.shared.valueOf p = none)
      (hpending : s.pending.filter (·.1 = p) = []) (hemitted : s.emitted.filter (·.1 = p) = [])
  | committing (value : T) (salt : Salt)
      (hstash : s.stash p = ⟨some value, some salt, some s.shared.round, (s.stash p).revealedRound⟩)
      (hround : (s.stash p).revealedRound ≠ some s.shared.round)
      (hhash : s.shared.hashOf p = none) (hvalue : s.shared.valueOf p = none)
      (hpending : s.pending.filter (·.1 = p) = [(p, .commit (hash value salt))])
      (hemitted : s.emitted.filter (·.1 = p) = [(p, .commit (hash value salt))])
  | committed (value : T) (salt : Salt)
      (hstash : s.stash p = ⟨some value, some salt, some s.shared.round, (s.stash p).revealedRound⟩)
      (hround : (s.stash p).revealedRound ≠ some s.shared.round)
      (hhash : s.shared.hashOf p = some (hash value salt)) (hvalue : s.shared.valueOf p = none)
      (hpending : s.pending.filter (·.1 = p) = [])
      (hemitted : s.emitted.filter (·.1 = p) = [(p, .commit (hash value salt))])
  | revealing (value : T) (salt : Salt)
      (hstash : s.stash p = ⟨some value, some salt, some s.shared.round, some s.shared.round⟩)
      (hhash : s.shared.hashOf p = some (hash value salt)) (hvalue : s.shared.valueOf p = none)
      (hphase : s.shared.phase ≠ .idle)
      (hpending : s.pending.filter (·.1 = p) = [(p, .reveal value salt)])
      (hemitted : s.emitted.filter (·.1 = p) =
        [(p, .commit (hash value salt)), (p, .reveal value salt)])
  | revealed (value : T) (salt : Salt)
      (hstash : s.stash p = ⟨some value, some salt, some s.shared.round, some s.shared.round⟩)
      (hhash : s.shared.hashOf p = some (hash value salt))
      (hvalue : s.shared.valueOf p = some value)
      (hpending : s.pending.filter (·.1 = p) = [])
      (hemitted : s.emitted.filter (·.1 = p) =
        [(p, .commit (hash value salt)), (p, .reveal value salt)])

/-- All participants are honest: each stands at a stage, and the messages under way are theirs. -/
structure Honest (hash : T → Salt → Commitment) (n : ℕ) (s : Parties T) : Prop where
  valid : s.shared.Valid hash n
  stage : ∀ p : Participant, p.val < n → s.Stage hash p
  members : ∀ m ∈ s.pending, m.1.val < n

variable {hash : T → Salt → Commitment} {n : ℕ} {s t : Parties T} {p q : Participant}

theorem Stage.frame (h : s.Stage hash q) (hstash : t.stash q = s.stash q)
    (hround : t.shared.round = s.shared.round) (hhash : t.shared.hashOf q = s.shared.hashOf q)
    (hvalue : t.shared.valueOf q = s.shared.valueOf q)
    (hphase : s.shared.phase ≠ .idle → t.shared.phase ≠ .idle)
    (hpending : t.pending.filter (·.1 = q) = s.pending.filter (·.1 = q))
    (hemitted : t.emitted.filter (·.1 = q) = s.emitted.filter (·.1 = q)) : t.Stage hash q := by
  cases h with
  | waiting h₁ h₂ h₃ h₄ h₅ h₆ =>
    exact .waiting (by rwa [hstash, hround]) (by rwa [hstash, hround]) (by rwa [hhash])
      (by rwa [hvalue]) (by rwa [hpending]) (by rwa [hemitted])
  | committing value salt h₁ h₂ h₃ h₄ h₅ h₆ =>
    exact .committing value salt (by rwa [hstash, hround]) (by rwa [hstash, hround])
      (by rwa [hhash]) (by rwa [hvalue]) (by rwa [hpending]) (by rwa [hemitted])
  | committed value salt h₁ h₂ h₃ h₄ h₅ h₆ =>
    exact .committed value salt (by rwa [hstash, hround]) (by rwa [hstash, hround])
      (by rwa [hhash]) (by rwa [hvalue]) (by rwa [hpending]) (by rwa [hemitted])
  | revealing value salt h₁ h₂ h₃ h₄ h₅ h₆ =>
    exact .revealing value salt (by rwa [hstash, hround]) (by rwa [hhash]) (by rwa [hvalue])
      (hphase h₄) (by rwa [hpending]) (by rwa [hemitted])
  | revealed value salt h₁ h₂ h₃ h₄ h₅ =>
    exact .revealed value salt (by rwa [hstash, hround]) (by rwa [hhash]) (by rwa [hvalue])
      (by rwa [hpending]) (by rwa [hemitted])

theorem filter_emit (l : List (Participant × CommitMessage T)) (p q : Participant)
    (msg : CommitMessage T) :
    (l ++ [(p, msg)]).filter (·.1 = q) =
      l.filter (·.1 = q) ++ if p = q then [(p, msg)] else [] := by
  rw [List.filter_append]
  by_cases h : p = q <;> simp [h]

theorem Honest.emit (h : s.Honest hash n) (hp : p.val < n) {stash : CommitRevealLocal T}
    (hstage : (s.emit p stash msg).Stage hash p) : (s.emit p stash msg).Honest hash n := by
  refine ⟨h.valid, fun q hq => ?_, fun m hm => ?_⟩
  · by_cases hqp : q = p
    · rw [hqp]
      exact hstage
    · have hpq : p ≠ q := Ne.symm hqp
      refine (h.stage q hq).frame (Function.update_of_ne hqp _ _) rfl rfl rfl id ?_ ?_
      · exact (filter_emit _ _ _ _).trans (by rw [if_neg hpq, List.append_nil])
      · exact (filter_emit _ _ _ _).trans (by rw [if_neg hpq, List.append_nil])
  · rcases List.mem_append.1 hm with hm | hm
    · exact h.members m hm
    · obtain rfl := List.mem_singleton.1 hm
      exact hp

theorem Honest.commit (h : s.Honest hash n) (p : Participant) (value : T) (salt : Salt) :
    (s.step hash n (.commit p value salt)).Honest hash n := by
  rw [step]
  split
  · exact h
  next hp =>
    have hp : p.val < n := Nat.not_le.1 hp
    by_cases hdone : (s.stash p).committedRound = some s.shared.round
    · rw [commitWithSalt, if_pos hdone]
      exact h
    · rw [commitWithSalt, if_neg hdone]
      refine h.emit hp ?_
      cases h.stage p hp with
      | waiting hc hr hhash hvalue hpending hemitted =>
        refine .committing value salt ?_ ?_ hhash hvalue ?_ ?_
        · simp [Parties.emit]
        · simpa [Parties.emit] using hr
        · exact (filter_emit _ _ _ _).trans (by rw [hpending, if_pos rfl, List.nil_append])
        · exact (filter_emit _ _ _ _).trans (by rw [hemitted, if_pos rfl, List.nil_append])
      | committing v r hstash | committed v r hstash | revealing v r hstash | revealed v r hstash =>
        rw [hstash] at hdone
        exact absurd rfl hdone

theorem Honest.takeReveal (h : s.Honest hash n) (p : Participant) :
    (s.step hash n (.takeReveal p)).Honest hash n := by
  rw [step]
  split
  · exact h
  next hp =>
    have hp : p.val < n := Nat.not_le.1 hp
    by_cases hdue : s.shared.phase ≠ .revealing ∨
        (s.stash p).committedRound ≠ some s.shared.round ∨
        (s.stash p).revealedRound = some s.shared.round
    · rw [CommitReveal.takeReveal, if_pos hdue]
      exact h
    · rw [CommitReveal.takeReveal, if_neg hdue]
      push Not at hdue
      obtain ⟨hphase, hcommitted, hunrevealed⟩ := hdue
      cases h.stage p hp with
      | waiting hc => exact absurd hcommitted hc
      | committing v r hstash hr hhash =>
        exact absurd hhash ((h.valid.revealing.1 hphase).1 p hp)
      | committed value salt hstash hr hhash hvalue hpending hemitted =>
        rw [hstash]
        refine h.emit hp (.revealing value salt ?_ hhash hvalue ?_ ?_ ?_)
        · simp [Parties.emit]
        · exact fun hidle => absurd (hphase.symm.trans hidle) nofun
        · exact (filter_emit _ _ _ _).trans (by rw [hpending, if_pos rfl, List.nil_append])
        · exact (filter_emit _ _ _ _).trans (by rw [hemitted, if_pos rfl]; rfl)
      | revealing v r hstash | revealed v r hstash =>
        rw [hstash] at hunrevealed
        exact absurd rfl hunrevealed

variable {index : ℕ} {m : Participant × CommitMessage T}

theorem filter_eraseIdx (h : l[index]? = some m)
    (q : Participant) :
    ∃ before after, l.filter (·.1 = q) =
        before ++ (if m.1 = q then [m] else []) ++ after ∧
      (l.eraseIdx index).filter (·.1 = q) = before ++ after := by
  obtain ⟨hlt, rfl⟩ := List.getElem?_eq_some_iff.1 h
  refine ⟨(l.take index).filter (·.1 = q), (l.drop (index + 1)).filter (·.1 = q), ?_, ?_⟩
  · conv_lhs => rw [← List.take_append_drop index l, List.drop_eq_getElem_cons hlt]
    rw [List.filter_append, List.filter_cons]
    split
    next heq => simp [of_decide_eq_true heq]
    next hne =>
      have hne : l[index].1 ≠ q := by simpa using hne
      simp [hne]
  · rw [List.eraseIdx_eq_take_drop_succ, List.filter_append]

theorem Honest.accepts (h : s.Honest hash n) (hget : s.pending[index]? = some (p, msg)) :
    (∃ value salt, msg = .commit (hash value salt) ∧ s.shared.TakesCommit p ∧
        s.stash p = ⟨some value, some salt, some s.shared.round, (s.stash p).revealedRound⟩ ∧
        (s.stash p).revealedRound ≠ some s.shared.round ∧
        s.pending.filter (·.1 = p) = [(p, msg)] ∧
        s.emitted.filter (·.1 = p) = [(p, .commit (hash value salt))]) ∨
      (∃ value salt, msg = .reveal value salt ∧ s.shared.TakesReveal hash p value salt ∧
        s.stash p = ⟨some value, some salt, some s.shared.round, some s.shared.round⟩ ∧
        s.pending.filter (·.1 = p) = [(p, msg)] ∧
        s.emitted.filter (·.1 = p) =
          [(p, .commit (hash value salt)), (p, .reveal value salt)]) := by
  have hp : p.val < n := h.members (p, msg) (List.mem_of_getElem? hget)
  have hmem : (p, msg) ∈ s.pending.filter (·.1 = p) :=
    List.mem_filter.2 ⟨List.mem_of_getElem? hget, by simp⟩
  have hlt : p.val < s.shared.hashes.length := h.valid.length ▸ hp
  cases h.stage p hp with
  | waiting hc hr hhash hvalue hpending hemitted =>
    rw [hpending] at hmem
    cases hmem
  | committing value salt hstash hr hhash hvalue hpending hemitted =>
    rw [hpending, List.mem_singleton] at hmem
    obtain ⟨-, rfl⟩ := Prod.mk.inj hmem
    exact .inl ⟨value, salt, rfl, ⟨hlt, h.valid.idle.2 ⟨p, hp, hhash⟩, hhash⟩, hstash, hr,
      hpending, hemitted⟩
  | committed value salt hstash hr hhash hvalue hpending hemitted =>
    rw [hpending] at hmem
    cases hmem
  | revealing value salt hstash hhash hvalue hphase hpending hemitted =>
    rw [hpending, List.mem_singleton] at hmem
    obtain ⟨-, rfl⟩ := Prod.mk.inj hmem
    have hrevealing : s.shared.phase = .revealing := by
      cases hs : s.shared.phase with
      | idle => exact absurd hs hphase
      | revealing => rfl
      | complete => exact absurd hvalue (h.valid.complete.1 hs p hp)
    exact .inr ⟨value, salt, rfl, ⟨hlt, hrevealing, hvalue, hhash⟩, hstash, hpending, hemitted⟩
  | revealed value salt hstash hhash hvalue hpending hemitted =>
    rw [hpending] at hmem
    cases hmem

theorem filter_eraseIdx_self (h : l[index]? = some m)
    (hfilter : l.filter (·.1 = m.1) = [m]) : (l.eraseIdx index).filter (·.1 = m.1) = [] := by
  obtain ⟨before, after, hwith, hwithout⟩ := filter_eraseIdx h m.1
  rw [if_pos rfl, hfilter] at hwith
  have hlength := congrArg List.length hwith
  simp only [List.length_append, List.length_singleton] at hlength
  rw [hwithout]
  apply List.length_eq_zero_iff.1
  rw [List.length_append]
  omega

theorem filter_eraseIdx_of_ne (h : l[index]? = some m)
    (hq : m.1 ≠ q) : (l.eraseIdx index).filter (·.1 = q) = l.filter (·.1 = q) := by
  obtain ⟨before, after, hwith, hwithout⟩ := filter_eraseIdx h q
  rw [hwithout, hwith, if_neg hq, List.append_nil]

theorem Honest.deliver (h : s.Honest hash n) (index : ℕ) :
    (s.step hash n (.deliver index)).Honest hash n := by
  rw [step]
  split
  next p msg hget =>
    have hvalid := h.valid.handle p msg
    have hmembers : ∀ m ∈ s.pending.eraseIdx index, m.1.val < n := fun m hm =>
      h.members m (List.mem_of_mem_eraseIdx hm)
    refine ⟨hvalid, fun q hq => ?_, hmembers⟩
    obtain ⟨value, salt, rfl, ht, hstash, hr, hpending, hemitted⟩ |
      ⟨value, salt, rfl, ht, hstash, hpending, hemitted⟩ := h.accepts hget
    · rw [handle_commit ht]
      have hupdate := hashOf_putHash ht.1 (hash value salt)
      by_cases hqp : q = p
      · rw [hqp]
        refine .committed value salt hstash hr ?_ (h.valid.untouched ht.2.1 p)
          (filter_eraseIdx_self hget hpending) hemitted
        rw [hupdate, Function.update_self]
      · refine (h.stage q hq).frame rfl rfl ?_ rfl (fun hphase => absurd ht.2.1 hphase)
          (filter_eraseIdx_of_ne hget (Ne.symm hqp)) rfl
        rw [hupdate, Function.update_of_ne hqp]
    · rw [handle_reveal ht]
      have hupdate := valueOf_putValue ht.1 value
      by_cases hqp : q = p
      · rw [hqp]
        refine .revealed value salt hstash ht.2.2.2 ?_ (filter_eraseIdx_self hget hpending) hemitted
        rw [hupdate, Function.update_self]
      · refine (h.stage q hq).frame rfl rfl rfl ?_ (fun _ => ?_)
          (filter_eraseIdx_of_ne hget (Ne.symm hqp)) rfl
        · rw [hupdate, Function.update_of_ne hqp]
        · have hle := h.valid.bounds.2
          have hlen := h.valid.length
          rw [s.shared.phase_putValue p value (by omega), ht.2.1]
          split <;> exact nofun
  next => exact h

theorem round_succ_ne (round : UInt32) : round ≠ round + 1 := by
  intro h
  have hnat := congrArg UInt32.toNat h
  have hlt := round.toNat_lt
  rw [UInt32.toNat_add] at hnat
  simp only [UInt32.reduceToNat] at hnat
  omega

theorem Honest.revealed (h : s.Honest hash n) (hphase : s.shared.phase = .complete)
    (hp : p.val < n) : ∃ value salt,
      s.stash p = ⟨some value, some salt, some s.shared.round, some s.shared.round⟩ ∧
      s.pending.filter (·.1 = p) = [] ∧
      s.emitted.filter (·.1 = p) =
        [(p, .commit (hash value salt)), (p, .reveal value salt)] := by
  have hvalue := h.valid.complete.1 hphase p hp
  cases h.stage p hp with
  | waiting hc hr hhash hnone | committing v r hstash hr hhash hnone
  | committed v r hstash hr hhash hnone | revealing v r hstash hhash hnone =>
    exact absurd hnone hvalue
  | revealed value salt hstash hhash hvalue hpending hemitted =>
    exact ⟨value, salt, hstash, hpending, hemitted⟩

theorem Honest.reset (h : s.Honest hash n) : (s.step hash n .reset).Honest hash n := by
  rw [step, CommitReveal.reset]
  by_cases hphase : s.shared.phase = .complete
  · rw [if_neg (not_not.2 hphase), h.valid.length]
    refine ⟨.fresh hash _ h.valid.bounds, fun p hp => ?_, h.members⟩
    obtain ⟨value, salt, hstash, hpending, -⟩ := h.revealed hphase hp
    have hne : some s.shared.round ≠ some (s.shared.round + 1) := fun heq =>
      round_succ_ne _ (Option.some.inj heq)
    refine .waiting ?_ ?_ (hashOf_fresh _ _) (valueOf_fresh _ _) hpending rfl
    · change (s.stash p).committedRound ≠ _
      rw [hstash]
      exact hne
    · change (s.stash p).revealedRound ≠ _
      rw [hstash]
      exact hne
  · rw [if_pos hphase]
    exact h

private theorem Honest.step (h : s.Honest hash n) (move : Move T) :
    (s.step hash n move).Honest hash n := by
  cases move with
  | commit p value salt => exact h.commit p value salt
  | takeReveal p => exact h.takeReveal p
  | deliver index => exact h.deliver index
  | reset => exact h.reset

theorem Honest.start (hash : T → Salt → Commitment) (hn : 2 ≤ n ∧ n ≤ 255) :
    (Parties.start T n).Honest hash n :=
  ⟨.fresh hash 0 hn, fun _ _ => .waiting nofun nofun (hashOf_fresh _ _) (valueOf_fresh _ _) rfl rfl,
    List.forall_mem_nil _⟩

theorem Honest.run (h : s.Honest hash n) (moves : List (Move T)) :
    (s.run hash n moves).Honest hash n := by
  induction moves generalizing s with
  | nil => exact h
  | cons move moves ih => exact ih (h.step move)

/-- A round that is not complete has a participant that owes a message, or a message under way. -/
theorem Honest.not_stuck (h : s.Honest hash n) (hphase : s.shared.phase ≠ .complete) :
    (∃ p : Participant, p.val < n ∧ s.shared.needsCommit (s.stash p) = true) ∨
      (∃ p : Participant, p.val < n ∧ (s.shared.takeReveal (s.stash p)).1.isSome = true) ∨
      s.pending ≠ [] := by
  by_cases hpending : s.pending = []
  · cases hs : s.shared.phase with
    | idle =>
      obtain ⟨p, hp, hnone⟩ := h.valid.idle.1 hs
      refine .inl ⟨p, hp, ?_⟩
      cases h.stage p hp with
      | waiting hc => simp [needsCommit, hs, hc]
      | committing v r hstash hr hhash hvalue hfilter =>
        rw [hpending] at hfilter
        cases hfilter
      | committed v r hstash hr hhash | revealing v r hstash hhash
      | revealed v r hstash hhash =>
        rw [hhash] at hnone
        cases hnone
    | revealing =>
      obtain ⟨hhashes, p, hp, hnone⟩ := h.valid.revealing.1 hs
      refine .inr (.inl ⟨p, hp, ?_⟩)
      cases h.stage p hp with
      | waiting hc hr hhash => exact absurd hhash (hhashes p hp)
      | committing v r hstash hr hhash => exact absurd hhash (hhashes p hp)
      | committed value salt hstash hr =>
        rw [CommitReveal.takeReveal, if_neg, hstash]
        · rfl
        · rw [hs, hstash]
          simp only [ne_eq, not_true_eq_false, false_or]
          exact hr
      | revealing v r hstash hhash hvalue hrp hfilter =>
        rw [hpending] at hfilter
        cases hfilter
      | revealed v r hstash hhash hvalue =>
        rw [hvalue] at hnone
        cases hnone
    | complete => exact absurd hs hphase
  · exact .inr (.inr hpending)

private theorem Honest.handle_ok (h : s.Honest hash n) (hm : m ∈ s.pending) :
    (s.shared.handle hash m.1 m.2).1 = .ok () := by
  obtain ⟨index, hindex⟩ := List.mem_iff_getElem?.1 hm
  obtain ⟨value, salt, hmsg, ht, -⟩ | ⟨value, salt, hmsg, ht, -⟩ := h.accepts hindex
  · rw [hmsg, handle_commit ht]
  · rw [hmsg, handle_reveal ht]

theorem Honest.emits (h : s.Honest hash n) (hp : p.val < n) :
    s.emitted.filter (·.1 = p) = [] ∨ ∃ value salt, s.emitted.filter (·.1 = p) <+:
      [(p, .commit (hash value salt)), (p, .reveal value salt)] := by
  cases h.stage p hp with
  | waiting hc hr hhash hvalue hpending hemitted => exact .inl hemitted
  | committing value salt hstash hr hhash hvalue hpending hemitted
  | committed value salt hstash hr hhash hvalue hpending hemitted =>
    refine .inr ⟨value, salt, ?_⟩
    rw [hemitted]
    exact List.prefix_append [_] [_]
  | revealing value salt hstash hhash hvalue hrp hpending hemitted
  | revealed value salt hstash hhash hvalue hpending hemitted =>
    refine .inr ⟨value, salt, ?_⟩
    rw [hemitted]

end Parties

theorem setParticipantCount_default {n : ℕ} (hn : 2 ≤ n ∧ n ≤ 255) :
    (default : CommitReveal T).setParticipantCount n = (.ok (), fresh T 0 n) := by
  rw [setParticipantCount, if_neg (by omega), if_neg (by omega), if_neg]
  · rfl
  · rintro (h | h)
    · exact h rfl
    · cases h

private theorem handle_error {hash : T → Salt → Commitment} {cr : CommitReveal T} {p : Participant}
    {e : CommitRevealError} (h : (cr.handle hash p msg).1 = .error e) :
    (cr.handle hash p msg).2 = cr := by
  obtain ⟨committed, rfl, ht, hs⟩ | ⟨value, salt, rfl, ht, hs⟩ | ⟨e', hs⟩ :=
    handle_cases hash cr p msg
  · rw [hs] at h
    cases h
  · rw [hs] at h
    cases h
  · rw [hs]

end CommitReveal

open CommitReveal in
/-- Commit-reveal among `n` participants.  Over any calls and any number of rounds the
phase says which slots are filled, a refused message changes nothing, and every value opens the
commitment its participant sent in the same round.  The order of the messages leaves no
trace.  Honest participants, whatever the interleaving, each emit one commitment and one
opening per round, all of which are accepted; a participant that owes a commitment gets it, and
nobody waits in vain. -/
theorem commit_reveal_sound_and_live {T : Type} (hash : T → Salt → Commitment) {n : ℕ}
    (hn : 2 ≤ n ∧ n ≤ 255) :
    (default : CommitReveal T).setParticipantCount n = (.ok (), fresh T 0 n) ∧
    (∀ calls, ∀ s, s = Progress.run hash ⟨fresh T 0 n, []⟩ calls →
      s.shared.hashes.length = n ∧ s.shared.values.length = n ∧
      (s.shared.phase = .idle ↔ ∃ p : Participant, p.val < n ∧ s.shared.hashOf p = none) ∧
      (s.shared.phase = .revealing ↔
        (∀ p : Participant, p.val < n → s.shared.hashOf p ≠ none) ∧
        ∃ p : Participant, p.val < n ∧ s.shared.valueOf p = none) ∧
      (s.shared.phase = .complete ↔ ∀ p : Participant, p.val < n → s.shared.valueOf p ≠ none) ∧
      (∀ source msg e, (s.shared.handle hash source msg).1 = .error e →
        (s.shared.handle hash source msg).2 = s.shared) ∧
      (∀ p value, s.shared.valueOf p = some value →
        ∃ salt, (p, .reveal value salt) ∈ s.log) ∧
      ∀ p value salt, (p, .reveal value salt) ∈ s.log →
        s.shared.hashOf p = some (hash value salt) ∧ (p, .commit (hash value salt)) ∈ s.log) ∧
    (∀ cs cs' rs rs', Exchange hash n cs rs → cs.Perm cs' → rs.Perm rs' → ∀ round,
      (fresh T round n).sendAll hash (commits cs ++ reveals rs) =
          (fresh T round n).sendAll hash (commits cs' ++ reveals rs') ∧
        ((fresh T round n).sendAll hash (commits cs ++ reveals rs)).phase = .complete) ∧
    ∀ moves, ∀ s, s = Parties.run hash n (Parties.start T n) moves →
      (∀ m ∈ s.pending, (s.shared.handle hash m.1 m.2).1 = .ok ()) ∧
      (∀ p : Participant, p.val < n →
        (s.emitted.filter (·.1 = p) = [] ∨ ∃ value salt, s.emitted.filter (·.1 = p) <+:
          [(p, .commit (hash value salt)), (p, .reveal value salt)]) ∧
        (s.shared.phase = .complete → ∃ value salt, s.emitted.filter (·.1 = p) =
          [(p, .commit (hash value salt)), (p, .reveal value salt)])) ∧
      (∀ p value salt, s.shared.needsCommit (s.stash p) = true →
        s.shared.commitWithSalt hash (s.stash p) value salt = (.ok (.commit (hash value salt)),
          { s.stash p with
            value := some value, salt := some salt, committedRound := some s.shared.round })) ∧
      (s.shared.phase ≠ .complete →
        (∃ p : Participant, p.val < n ∧ s.shared.needsCommit (s.stash p) = true) ∨
        (∃ p : Participant, p.val < n ∧ (s.shared.takeReveal (s.stash p)).1.isSome = true) ∨
        s.pending ≠ []) := by
  refine ⟨setParticipantCount_default hn, ?_, ?_, ?_⟩
  · rintro calls s rfl
    have h := (Progress.Sound.fresh hash hn 0).run calls
    refine ⟨h.valid.length, ?_, h.valid.idle, h.valid.revealing, h.valid.complete,
      fun _ _ _ => handle_error, fun p value => (h.values p value).1, fun p value salt hm => ?_⟩
    · rw [CommitReveal.aligned, h.valid.length]
    · have hopens := h.opens p value salt hm
      exact ⟨hopens, (h.hashes p _).1 hopens⟩
  · intro cs cs' rs rs' h hcs hrs round
    exact ⟨h.sendAll_eq hn hcs hrs round, h.complete hn round⟩
  · rintro moves s rfl
    have h := (Parties.Honest.start hash hn).run moves
    refine ⟨fun m hm => h.handle_ok hm, fun p hp => ⟨h.emits hp, fun hphase => ?_⟩,
      fun p value salt hneeds => ?_, h.not_stuck⟩
    · obtain ⟨value, salt, -, -, hemitted⟩ := h.revealed hphase hp
      exact ⟨value, salt, hemitted⟩
    · obtain ⟨-, hopen⟩ := Bool.and_eq_true_iff.1 hneeds
      rw [commitWithSalt, if_neg (of_decide_eq_true hopen)]

def Sample.bitHash : Bool → Salt → Commitment :=
  computeHash referencePrimitives fun b => [if b then 1 else 0]

open CommitReveal in
def Sample.bitMoves : List (Move Bool) :=
  [.commit 0 true 0, .deliver 0, .commit 1 false 0, .deliver 0, .takeReveal 1, .takeReveal 0,
    .deliver 1, .deliver 0]

open CommitReveal in
theorem commit_reveal_sound_and_live_two :
    (∃ value salt, ((Parties.start Bool 2).run Sample.bitHash 2 Sample.bitMoves).emitted.filter
      (·.1 = 0) = [(0, .commit (Sample.bitHash value salt)), (0, .reveal value salt)]) ∧
    (fresh Bool 0 2).sendAll Sample.bitHash
        (commits [(0, Sample.bitHash true 0), (1, Sample.bitHash false 0)] ++
          reveals [(0, true, 0), (1, false, 0)]) =
      (fresh Bool 0 2).sendAll Sample.bitHash
        (commits [(1, Sample.bitHash false 0), (0, Sample.bitHash true 0)] ++
          reveals [(1, false, 0), (0, true, 0)]) := by
  obtain ⟨-, -, h, hparties⟩ :=
    commit_reveal_sound_and_live Sample.bitHash (by decide : 2 ≤ 2 ∧ 2 ≤ 255)
  refine ⟨((hparties Sample.bitMoves _ rfl).2.1 0 (by decide)).2 (by decide +kernel), ?_⟩
  refine (h [(0, Sample.bitHash true 0), (1, Sample.bitHash false 0)] _
    [(0, true, 0), (1, false, 0)] _ ⟨?_, ?_, ?_, ?_, ?_⟩ (.swap _ _ _) (.swap _ _ _) 0).1
  · decide
  · decide +kernel
  · decide
  · decide +kernel
  · simp

end Arena0
