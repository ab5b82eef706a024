import Arena0.CommitReveal

/-!
# Joint randomness

The nonces of a completed commit-reveal round are combined by exclusive or.  One
participant is honest; the others see every message it sends before they choose
their own, and they also choose when its messages are applied.

The commitment hash binds the nonce and the salt, not the participant.  Whoever
repeats the commitment of the honest participant can open it with the opening the honest
participant sends later, so the honest nonce counts once for every such slot.
-/

namespace Arena0

open Borsh Fallible CommitReveal

abbrev Nonce := FixedBytes 32

namespace Nonce

def xor (a b : Nonce) : Nonce :=
  ⟨List.zipWith (· ^^^ ·) a.bytes b.bytes, by
    rw [List.length_zipWith, a.length_eq, b.length_eq, Nat.min_self]⟩

theorem xor_comm (a b : Nonce) : a.xor b = b.xor a := by
  apply FixedBytes.ext
  exact List.zipWith_comm_of_comm UInt8.xor_comm

theorem xor_assoc (a b c : Nonce) : (a.xor b).xor c = a.xor (b.xor c) := by
  apply FixedBytes.ext
  apply List.ext_getElem
  · simp [xor, a.length_eq, b.length_eq, c.length_eq]
  · intro i h h'
    simp [xor, UInt8.xor_assoc]

@[simp] theorem xor_self (a : Nonce) : a.xor a = 0 := by
  apply FixedBytes.ext
  change List.zipWith (· ^^^ ·) a.bytes a.bytes = List.replicate 32 0
  rw [List.zipWith_self, List.eq_replicate_iff]
  simp [a.length_eq]

@[simp] theorem xor_zero (a : Nonce) : a.xor 0 = a := by
  apply FixedBytes.ext
  change List.zipWith (· ^^^ ·) a.bytes (List.replicate 32 0) = a.bytes
  apply List.ext_getElem
  · simp [a.length_eq]
  · intro i h h'
    rw [List.getElem_zipWith, List.getElem_replicate, UInt8.xor_zero]

@[simp] theorem zero_xor (a : Nonce) : xor 0 a = a := by
  rw [xor_comm, xor_zero]

@[simp] theorem xor_xor_cancel (a b : Nonce) : (a.xor b).xor b = a := by
  rw [xor_assoc, xor_self, xor_zero]

theorem xor_eq_iff {a b c : Nonce} : a.xor b = c ↔ a = c.xor b := by
  constructor
  · rintro rfl
    rw [xor_xor_cancel]
  · rintro rfl
    rw [xor_xor_cancel]

theorem xor_xor_xor_comm (a b c d : Nonce) : (a.xor b).xor (c.xor d) = (a.xor c).xor (b.xor d) := by
  rw [xor_assoc, xor_assoc, ← xor_assoc b, xor_comm b, xor_assoc c]

theorem foldl_xor (a : Nonce) (values : List Nonce) :
    values.foldl xor a = a.xor (values.foldl xor 0) := by
  induction values generalizing a with
  | nil => rw [List.foldl_nil, List.foldl_nil, xor_zero]
  | cons value values ih =>
    rw [List.foldl_cons, List.foldl_cons, ih, ih (xor 0 value), zero_xor, xor_assoc]

theorem foldl_xor_cons (value : Nonce) (values : List Nonce) :
    (value :: values).foldl xor 0 = value.xor (values.foldl xor 0) := by
  rw [List.foldl_cons, zero_xor, foldl_xor]

/-- Two lists of nonces that hold `x` and `x'` in the marked slots and agree in the others. -/
theorem foldl_xor_marked {α : Type} (marked : α → Bool) {x x' : Nonce} {slots : List α}
    {values values' : List Nonce} (hlength : values.length = slots.length)
    (hlength' : values'.length = slots.length)
    (h : ∀ (j : ℕ) c v v', slots[j]? = some c → values[j]? = some v → values'[j]? = some v' →
      if marked c = true then v = x ∧ v' = x' else v = v') :
    (values.foldl xor 0).xor (values'.foldl xor 0) =
      if Odd (slots.countP marked) then x.xor x' else 0 := by
  induction slots generalizing values values' with
  | nil =>
    rw [List.length_eq_zero_iff.1 hlength, List.length_eq_zero_iff.1 hlength']
    rfl
  | cons c slots ih =>
    obtain ⟨v, values, rfl⟩ := List.exists_cons_of_length_eq_add_one hlength
    obtain ⟨v', values', rfl⟩ := List.exists_cons_of_length_eq_add_one hlength'
    have hrest := ih (Nat.succ.inj hlength) (Nat.succ.inj hlength') fun j c v v' hc hv hv' =>
      h (j + 1) c v v' hc hv hv'
    have hfirst := h 0 c v v' rfl rfl rfl
    rw [foldl_xor_cons, foldl_xor_cons, xor_xor_xor_comm, hrest, List.countP_cons]
    by_cases hc : marked c = true
    · rw [if_pos hc] at hfirst ⊢
      rw [hfirst.1, hfirst.2]
      by_cases hodd : Odd (slots.countP marked)
      · rw [if_pos hodd, if_neg (by grind), xor_self]
      · rw [if_neg hodd, if_pos (by grind), xor_zero]
    · rw [if_neg hc] at hfirst ⊢
      rw [hfirst, xor_self, zero_xor, Nat.add_zero]

end Nonce

namespace CommitReveal

def randomBytes (cr : CommitReveal Nonce) : Option Nonce :=
  cr.allValues.map fun values => values.foldl Nonce.xor 0

def randomU64 (cr : CommitReveal Nonce) : Option ℕ :=
  cr.randomBytes.map fun bytes => Codec.leNat (bytes.bytes.take 8)

def randomRange (cr : CommitReveal Nonce) (max : ℕ) : Option ℕ :=
  cr.randomU64.map (· % max)

/-- How many participants hold the commitment of a participant, itself included. -/
def sharers {T : Type} (cr : CommitReveal T) (p : Participant) : ℕ :=
  cr.hashes.countP (· = cr.hashOf p)

end CommitReveal

/-- The turn order of sequential-count: round robin from a random participant. -/
def SequentialCount.applyOrder (cr : CommitReveal Nonce) : Except String (List Participant) := do
  let participantCount := cr.hashes.length
  let start ← okOr (cr.randomRange participantCount) "completed commit-reveal has random bytes"
  (List.range participantCount).mapM fun offset =>
    let index := (start + offset) % participantCount
    if h : index < 256 then .ok ⟨index, h⟩
    else .error "commit-reveal participant count fits in u8"

/-! ## The game -/

/-- What happens next: the honest participant speaks, its oldest message is applied, or
another participant sends a message. -/
inductive GameTurn where
  | honest
  | deliver
  | other (source : Participant) (msg : CommitMessage Nonce)

/-- One honest participant among `n`, and everything the others may do.  The oracle
is the commitment hash as it is when the honest nonce is `x`; the commitment to the
honest nonce does not depend on it.  The others choose each turn from the number of turns
made and the messages sent. -/
structure Game where
  n : ℕ
  bounds : 2 ≤ n ∧ n ≤ 255
  me : Participant
  member : me.val < n
  salt : Salt
  oracle : (x : Nonce) → Nonce → Salt → Commitment
  hides : ∀ x x', oracle x x salt = oracle x' x' salt
  strategy : ℕ → List (Participant × CommitMessage Nonce) → GameTurn

/-- The shared state, the stash and the unapplied messages of the honest participant, and
every message sent. -/
structure Play where
  shared : CommitReveal Nonce
  stash : CommitRevealLocal Nonce
  pending : List (CommitMessage Nonce)
  sent : List (Participant × CommitMessage Nonce)

namespace Play

variable (g : Game) (x : Nonce)

def emit (s : Play) (stash : CommitRevealLocal Nonce) (msg : CommitMessage Nonce) : Play :=
  { s with
    stash := stash
    pending := s.pending ++ [msg]
    sent := s.sent ++ [(g.me, msg)] }

/-- The honest participant commits to its nonce, and reveals it once everyone committed. -/
def speak (s : Play) : Play :=
  if s.shared.needsCommit s.stash = true then
    match s.shared.commitWithSalt (g.oracle x) s.stash x g.salt with
    | (.ok msg, stash) => s.emit g stash msg
    | (.error _, _) => s
  else
    match s.shared.takeReveal s.stash with
    | (some msg, stash) => s.emit g stash msg
    | (none, _) => s

def step (s : Play) : GameTurn → Play
  | .honest => s.speak g x
  | .deliver =>
    match s.pending with
    | msg :: pending =>
      { s with shared := (s.shared.handle (g.oracle x) g.me msg).2, pending := pending }
    | [] => s
  | .other source msg =>
    if source = g.me then s
    else
      { s with
        shared := (s.shared.handle (g.oracle x) source msg).2
        sent := s.sent ++ [(source, msg)] }

end Play

namespace Game

variable (g : Game)

/-- The game after some turns, when the honest nonce is `x`. -/
def play (x : Nonce) : ℕ → Play
  | 0 => ⟨fresh Nonce 0 g.n, default, [], []⟩
  | k + 1 => (play x k).step g x (g.strategy k (play x k).sent)

def commitment : Commitment :=
  g.oracle 0 0 g.salt

theorem oracle_self (x : Nonce) : g.oracle x x g.salt = g.commitment :=
  g.hides x 0

/-- No two openings that are ever sent open the same commitment, but for the
honest opening in each run. -/
def Binding : Prop :=
  ∀ x x' k k' p p' v v' r r', (p, .reveal v r) ∈ (g.play x k).sent →
    (p', .reveal v' r') ∈ (g.play x' k').sent → g.oracle x v r = g.oracle x' v' r' →
    (v = v' ∧ r = r') ∨ (v = x ∧ r = g.salt ∧ v' = x' ∧ r' = g.salt)

end Game

/-! ## One run -/

namespace Play

variable {g : Game} {x : Nonce} {s : Play} {log : List (Participant × CommitMessage Nonce)}

/-- What holds in every run: the slots hold what was accepted, which was sent, and the
honest participant sends its commitment and its opening only. -/
structure Fair (g : Game) (x : Nonce) (s : Play) (log : List (Participant × CommitMessage Nonce)) :
    Prop where
  sound : Progress.Sound (g.oracle x) g.n ⟨s.shared, log⟩
  logged : ∀ m ∈ log, m ∈ s.sent
  own : ∀ msg, (g.me, msg) ∈ s.sent → msg = .commit g.commitment ∨ msg = .reveal x g.salt
  pending : ∀ msg ∈ s.pending, (g.me, msg) ∈ s.sent
  value : ∀ v, s.stash.value = some v → v = x
  salt : ∀ r, s.stash.salt = some r → r = g.salt

theorem Fair.emit (h : s.Fair g x log) {stash : CommitRevealLocal Nonce}
    {msg : CommitMessage Nonce} (hmsg : msg = .commit g.commitment ∨ msg = .reveal x g.salt)
    (hvalue : ∀ v, stash.value = some v → v = x) (hsalt : ∀ r, stash.salt = some r → r = g.salt) :
    (s.emit g stash msg).Fair g x log where
  sound := h.sound
  logged m hm := List.mem_append_left _ (h.logged m hm)
  own m hm := by
    obtain hm | hm := List.mem_append.1 hm
    · exact h.own m hm
    · cases List.mem_singleton.1 hm
      exact hmsg
  pending m hm := by
    obtain hm | hm := List.mem_append.1 hm
    · exact List.mem_append_left _ (h.pending m hm)
    · cases List.mem_singleton.1 hm
      exact List.mem_append_right _ (List.mem_singleton_self _)
  value := hvalue
  salt := hsalt

theorem Fair.speak (h : s.Fair g x log) : (s.speak g x).Fair g x log := by
  rw [Play.speak]
  split
  · rw [commitWithSalt]
    split
    next hc =>
      split at hc
      · cases hc
      · cases hc
        refine h.emit (.inl ?_) (fun v hv => (Option.some.inj hv).symm) fun r hr =>
          (Option.some.inj hr).symm
        rw [g.oracle_self]
    · exact h
  · split
    next msg stash hr =>
      rw [CommitReveal.takeReveal] at hr
      split at hr
      · cases hr
      · split at hr
        next value salt hvalue hsalt =>
          cases hr
          refine h.emit (.inr ?_) h.value h.salt
          rw [h.value value hvalue, h.salt salt hsalt]
        · cases hr
    · exact h

private theorem Fair.handle (h : s.Fair g x log) {t : Play} {source : Participant}
    {msg : CommitMessage Nonce} (hsent : (source, msg) ∈ t.sent)
    (hshared : t.shared = (s.shared.handle (g.oracle x) source msg).2) (hstash : t.stash = s.stash)
    (hall : ∀ m ∈ s.sent, m ∈ t.sent)
    (hown : ∀ msg, (g.me, msg) ∈ t.sent → (g.me, msg) ∈ s.sent)
    (hpending : ∀ msg ∈ t.pending, msg ∈ s.pending) : ∃ log', t.Fair g x log' := by
  have hsound := h.sound.step (.handle source msg)
  have hrest : ∀ log', Progress.Sound (g.oracle x) g.n ⟨t.shared, log'⟩ →
      (∀ m ∈ log', m ∈ t.sent) → t.Fair g x log' := fun log' hsound hlogged =>
    ⟨hsound, hlogged, fun m hm => h.own m (hown m hm),
      fun m hm => hall _ (h.pending m (hpending m hm)), hstash ▸ h.value, hstash ▸ h.salt⟩
  rw [Progress.step] at hsound
  split at hsound
  next shared heq =>
    refine ⟨log ++ [(source, msg)], hrest _ ?_ fun m hm => ?_⟩
    · rw [hshared, heq]
      exact hsound
    · obtain hm | hm := List.mem_append.1 hm
      · exact hall m (h.logged m hm)
      · rwa [List.mem_singleton.1 hm]
  next e shared heq =>
    refine ⟨log, hrest _ ?_ fun m hm => hall m (h.logged m hm)⟩
    rw [hshared, heq]
    exact hsound

private theorem Fair.step (h : s.Fair g x log) (turn : GameTurn) :
    ∃ log', (s.step g x turn).Fair g x log' := by
  cases turn with
  | honest => exact ⟨log, h.speak⟩
  | deliver =>
    rw [Play.step]
    split
    next msg pending heq =>
      have hmem : msg ∈ s.pending := heq ▸ List.mem_cons_self
      refine h.handle (h.pending msg hmem) rfl rfl (fun _ hm => hm) (fun _ hm => hm) fun m hm => ?_
      rw [heq]
      exact List.mem_cons_of_mem _ hm
    · exact ⟨log, h⟩
  | other source msg =>
    rw [Play.step]
    split
    · exact ⟨log, h⟩
    next hne =>
      refine h.handle (List.mem_append_right _ (List.mem_singleton_self _)) rfl rfl
        (fun m hm => List.mem_append_left _ hm) (fun m hm => ?_) fun _ hm => hm
      obtain hm | hm := List.mem_append.1 hm
      · exact hm
      · cases List.mem_singleton.1 hm
        exact absurd rfl hne

end Play

theorem Game.exists_fair (g : Game) (x : Nonce) (k : ℕ) : ∃ log, (g.play x k).Fair g x log := by
  induction k with
  | zero =>
    exact ⟨[], .fresh _ g.bounds 0, List.forall_mem_nil _, nofun, List.forall_mem_nil _, nofun,
      nofun⟩
  | succ k ih =>
    obtain ⟨log, h⟩ := ih
    exact h.step (g.strategy k _)

theorem Game.length_hashes (g : Game) (x : Nonce) (k : ℕ) :
    (g.play x k).shared.hashes.length = g.n := by
  obtain ⟨log, hfair⟩ := g.exists_fair x k
  exact hfair.sound.valid.length

/-! ## Two runs -/

namespace CommitReveal

variable {T : Type} {cr : CommitReveal T} {p : Participant} {msg : CommitMessage T}

private theorem handle_of_idle (h : cr.phase = .idle) (hash hash' : T → Salt → Commitment) :
    cr.handle hash p msg = cr.handle hash' p msg := by
  cases msg with
  | commit committed => rfl
  | reveal value salt => simp [handle, h]

private theorem handle_of_not_idle (hash : T → Salt → Commitment) (h : cr.phase ≠ .idle) :
    (cr.handle hash p msg).2.hashes = cr.hashes ∧ (cr.handle hash p msg).2.phase ≠ .idle := by
  obtain ⟨committed, rfl, ht, hs⟩ | ⟨value, salt, rfl, ht, hs⟩ | ⟨e, hs⟩ :=
    handle_cases hash cr p msg
  · exact absurd ht.2.1 h
  · rw [hs]
    refine ⟨rfl, ?_⟩
    dsimp only [putValue]
    split
    · exact nofun
    · exact h
  · rw [hs]
    exact ⟨rfl, h⟩

theorem phase_of_handle_complete {hash : T → Salt → Commitment}
    (h : (cr.handle hash p msg).2.phase = .complete) :
    cr.phase = .revealing ∨ cr.phase = .complete := by
  obtain ⟨committed, rfl, ht, hs⟩ | ⟨value, salt, rfl, ht, hs⟩ | ⟨e, hs⟩ :=
    handle_cases hash cr p msg
  · rw [hs] at h
    dsimp only [putHash] at h
    rw [ht.2.1] at h
    split at h <;> cases h
  · exact .inl ht.2.1
  · rw [hs] at h
    exact .inr h

end CommitReveal

namespace Play

variable {g : Game} {x x' : Nonce} {s t : Play}

private theorem shared_step (g : Game) (x : Nonce) (s : Play) (turn : GameTurn) :
    (s.step g x turn).shared = s.shared ∨
      ∃ p msg, (s.step g x turn).shared = (s.shared.handle (g.oracle x) p msg).2 := by
  cases turn with
  | honest =>
    left
    rw [step, speak]
    split <;> split <;> rfl
  | deliver =>
    rw [step]
    split
    · exact .inr ⟨_, _, rfl⟩
    · exact .inl rfl
  | other source msg =>
    rw [step]
    split
    · exact .inl rfl
    · exact .inr ⟨_, _, rfl⟩

private theorem hashes_step (h : s.shared.phase ≠ .idle) (turn : GameTurn) :
    (s.step g x turn).shared.hashes = s.shared.hashes ∧
      (s.step g x turn).shared.phase ≠ .idle := by
  obtain hs | ⟨p, msg, hs⟩ := shared_step g x s turn
  · rw [hs]
    exact ⟨rfl, h⟩
  · rw [hs]
    exact handle_of_not_idle _ h

/-- Two runs with different honest nonces.  They are alike until all commitments
are in, and have the same commitments ever after. -/
structure Twin (s t : Play) : Prop where
  hashes : s.shared.hashes = t.shared.hashes
  phase : s.shared.phase = .idle ↔ t.shared.phase = .idle
  shared : s.shared.phase = .idle → s.shared = t.shared
  pending : s.shared.phase = .idle → s.pending = t.pending
  sent : s.shared.phase = .idle → s.sent = t.sent
  committed : s.shared.phase = .idle → s.stash.committedRound = t.stash.committedRound

private theorem Twin.of_eq (hshared : s.shared = t.shared) (hpending : s.pending = t.pending)
    (hsent : s.sent = t.sent) (hcommitted : s.stash.committedRound = t.stash.committedRound) :
    s.Twin t :=
  ⟨by rw [hshared], by rw [hshared], fun _ => hshared, fun _ => hpending, fun _ => hsent,
    fun _ => hcommitted⟩

theorem speak_of_idle (h : s.shared.phase = .idle) :
    s.speak g x =
      if s.stash.committedRound = some s.shared.round then s
      else s.emit g { s.stash with
        value := some x, salt := some g.salt, committedRound := some s.shared.round }
        (.commit g.commitment) := by
  have hreveal : s.shared.takeReveal s.stash = (none, s.stash) := by
    rw [CommitReveal.takeReveal, if_pos]
    left
    simp [h]
  rw [speak, hreveal]
  by_cases hc : s.stash.committedRound = some s.shared.round
  · rw [if_pos hc, if_neg (by simp [needsCommit, hc])]
  · rw [if_neg hc, if_pos (by simp [needsCommit, h, hc]), commitWithSalt, if_neg hc, g.oracle_self]

private theorem Twin.step (h : s.Twin t) (k : ℕ) :
    (s.step g x (g.strategy k s.sent)).Twin (t.step g x' (g.strategy k t.sent)) := by
  by_cases hs : s.shared.phase = .idle
  · have hshared := h.shared hs
    have hpending := h.pending hs
    have hsent := h.sent hs
    have hcommitted := h.committed hs
    rw [← hsent]
    cases g.strategy k s.sent with
    | honest =>
      rw [Play.step, Play.step, speak_of_idle hs, speak_of_idle (h.phase.1 hs), ← hshared,
        ← hcommitted]
      split
      · exact h
      · refine .of_eq hshared ?_ ?_ rfl
        · rw [emit, emit, hpending]
        · rw [emit, emit, hsent]
    | deliver =>
      rw [Play.step, Play.step, ← hpending]
      split
      next msg pending heq =>
        refine .of_eq ?_ rfl hsent hcommitted
        rw [← hshared, handle_of_idle hs]
      · exact h
    | other source msg =>
      rw [Play.step, Play.step]
      split
      · exact h
      · refine .of_eq ?_ hpending ?_ hcommitted
        · rw [← hshared, handle_of_idle hs]
        · rw [hsent]
  · obtain ⟨hhash, hphase⟩ := hashes_step (g := g) (x := x) hs (g.strategy k s.sent)
    obtain ⟨hhash', hphase'⟩ :=
      hashes_step (g := g) (x := x') (mt h.phase.2 hs) (g.strategy k t.sent)
    refine ⟨?_, iff_of_false hphase hphase', fun hi => absurd hi hphase, fun hi => absurd hi hphase,
      fun hi => absurd hi hphase, fun hi => absurd hi hphase⟩
    rw [hhash, hhash', h.hashes]

end Play

namespace Game

variable {g : Game} {x x' : Nonce} {k k' : ℕ}

theorem twin (g : Game) (x x' : Nonce) (k : ℕ) : (g.play x k).Twin (g.play x' k) := by
  induction k with
  | zero => exact .of_eq rfl rfl rfl rfl
  | succ k ih => exact ih.step k

theorem hashes_stable (h : (g.play x k).shared.phase ≠ .idle) (hk : k ≤ k') :
    (g.play x k').shared.hashes = (g.play x k).shared.hashes := by
  suffices (g.play x k').shared.hashes = (g.play x k).shared.hashes ∧
      (g.play x k').shared.phase ≠ .idle from this.1
  induction hk with
  | refl => exact ⟨rfl, h⟩
  | step hk ih =>
    obtain ⟨hhash, hphase⟩ := Play.hashes_step ih.2 _
    exact ⟨hhash.trans ih.1, hphase⟩

/-- The commitments do not depend on the honest nonce. -/
theorem hashes_eq (h : (g.play x k).shared.phase ≠ .idle)
    (h' : (g.play x' k').shared.phase ≠ .idle) :
    (g.play x k).shared.hashes = (g.play x' k').shared.hashes := by
  rw [← hashes_stable h (le_max_left k k'), ← hashes_stable h' (le_max_right k k')]
  exact (g.twin x x' _).hashes

theorem exists_revealing (h : (g.play x k).shared.phase = .complete) :
    ∃ k', (g.play x k').shared.phase = .revealing := by
  induction k with
  | zero => cases h
  | succ k ih =>
    obtain hs | ⟨p, msg, hs⟩ := Play.shared_step g x (g.play x k) (g.strategy k (g.play x k).sent)
    · exact ih (hs ▸ h)
    · rw [play, hs] at h
      obtain hphase | hphase := phase_of_handle_complete h
      · exact ⟨k, hphase⟩
      · exact ih hphase

end Game

/-! ## What the coalition can force -/

namespace CommitReveal

theorem eq_map_some_of_mapM {T : Type} {slots : List (Option T)} {values : List T}
    (h : slots.mapM id = some values) : slots = values.map some := by
  induction slots generalizing values with
  | nil =>
    cases h
    rfl
  | cons slot slots ih =>
    rw [List.mapM_cons] at h
    obtain ⟨value, rfl, hrest⟩ := Option.bind_eq_some_iff.1 h
    obtain ⟨rest, hmap, hvalues⟩ := Option.bind_eq_some_iff.1 hrest
    cases hvalues
    rw [ih hmap]
    rfl

theorem randomBytes_eq_some {cr : CommitReveal Nonce} {r : Nonce} (h : cr.randomBytes = some r) :
    cr.phase = .complete ∧
      ∃ values : List Nonce, cr.values = values.map some ∧ r = values.foldl Nonce.xor 0 := by
  obtain ⟨values, hvalues, rfl⟩ := Option.map_eq_some_iff.1 h
  rw [allValues] at hvalues
  split at hvalues
  next hphase => exact ⟨hphase, values, eq_map_some_of_mapM hvalues, rfl⟩
  · cases hvalues

end CommitReveal

namespace Game

variable {g : Game} {x x' r r' : Nonce} {k k' : ℕ} {p : Participant} {v v' : Nonce}

theorem exists_opening (h : (g.play x k).shared.valueOf p = some v) :
    ∃ salt, (p, .reveal v salt) ∈ (g.play x k).sent ∧
      (g.play x k).shared.hashOf p = some (g.oracle x v salt) := by
  obtain ⟨log, hfair⟩ := g.exists_fair x k
  obtain ⟨salt, hlog⟩ := (hfair.sound.values p v).1 h
  exact ⟨salt, hfair.logged _ hlog, hfair.sound.opens p v salt hlog⟩

theorem hashOf_me (h : (g.play x k).shared.phase ≠ .idle) :
    (g.play x k).shared.hashOf g.me = some g.commitment := by
  obtain ⟨log, hfair⟩ := g.exists_fair x k
  cases hhash : (g.play x k).shared.hashOf g.me with
  | none => exact absurd (hfair.sound.valid.idle.2 ⟨g.me, g.member, hhash⟩) h
  | some committed =>
    obtain heq | heq := hfair.own _ (hfair.logged _ ((hfair.sound.hashes _ _).1 hhash))
    · cases heq
      rfl
    · cases heq

theorem honest_opening (h : (g.play x k).shared.phase = .complete) :
    (g.me, .reveal x g.salt) ∈ (g.play x k).sent := by
  obtain ⟨log, hfair⟩ := g.exists_fair x k
  obtain ⟨v, hv⟩ := Option.ne_none_iff_exists'.1
    (hfair.sound.valid.complete.1 h g.me g.member)
  obtain ⟨salt, hsent, -⟩ := exists_opening hv
  obtain heq | heq := hfair.own _ hsent
  · cases heq
  · rwa [heq] at hsent

theorem valueOf_of_shared (hb : g.Binding) (h : (g.play x k).shared.phase = .complete)
    (hhash : (g.play x k).shared.hashOf p = some g.commitment)
    (hv : (g.play x k).shared.valueOf p = some v) : v = x := by
  obtain ⟨salt, hsent, hopen⟩ := exists_opening hv
  have heq : g.oracle x v salt = g.oracle x x g.salt := by
    rw [g.oracle_self, ← Option.some.inj (hopen.symm.trans hhash)]
  obtain ⟨hvx, -⟩ | ⟨hvx, -⟩ := hb _ _ _ _ _ _ _ _ _ _ hsent (honest_opening h) heq
  · exact hvx
  · exact hvx

/-- Whoever holds another commitment reveals the same value in every run. -/
theorem valueOf_eq (hb : g.Binding)
    (hhash : (g.play x k).shared.hashOf p = (g.play x' k').shared.hashOf p)
    (hne : (g.play x k).shared.hashOf p ≠ some g.commitment)
    (hv : (g.play x k).shared.valueOf p = some v)
    (hv' : (g.play x' k').shared.valueOf p = some v') : v = v' := by
  obtain ⟨salt, hsent, hopen⟩ := exists_opening hv
  obtain ⟨salt', hsent', hopen'⟩ := exists_opening hv'
  have heq : g.oracle x v salt = g.oracle x' v' salt' :=
    Option.some.inj (hopen.symm.trans (hhash.trans hopen'))
  obtain ⟨hvv, -⟩ | ⟨rfl, rfl, -⟩ := hb _ _ _ _ _ _ _ _ _ _ hsent hsent' heq
  · exact hvv
  · rw [hopen, g.oracle_self] at hne
    exact absurd rfl hne

theorem randomBytes_xor (hb : g.Binding) (h : (g.play x k).shared.randomBytes = some r)
    (h' : (g.play x' k').shared.randomBytes = some r') :
    r.xor r' = if Odd ((g.play x k).shared.sharers g.me) then x.xor x' else 0 := by
  obtain ⟨hphase, values, hvalues, rfl⟩ := randomBytes_eq_some h
  obtain ⟨hphase', values', hvalues', rfl⟩ := randomBytes_eq_some h'
  have hidle : (g.play x k).shared.phase ≠ .idle := by
    rw [hphase]
    exact nofun
  have hidle' : (g.play x' k').shared.phase ≠ .idle := by
    rw [hphase']
    exact nofun
  have hhashes := hashes_eq hidle hidle'
  have hlength := (g.play x k).shared.aligned
  have hlength' := (g.play x' k').shared.aligned
  rw [hvalues, List.length_map] at hlength
  rw [hvalues', List.length_map, ← hhashes] at hlength'
  rw [sharers, hashOf_me hidle]
  refine Nonce.foldl_xor_marked _ hlength hlength' fun j c v v' hc hv hv' => ?_
  have hj : j < 256 := by
    have hlt := (List.getElem?_eq_some_iff.1 hc).1
    have hn := g.length_hashes x k
    have hle := g.bounds.2
    omega
  have hslot : (g.play x k).shared.hashOf ⟨j, hj⟩ = c := by
    rw [hashOf, List.getD_eq_getElem?_getD, hc, Option.getD_some]
  have hsame : (g.play x k).shared.hashOf ⟨j, hj⟩ = (g.play x' k').shared.hashOf ⟨j, hj⟩ := by
    rw [hashOf, hashOf, hhashes]
  have hvalue : (g.play x k).shared.valueOf ⟨j, hj⟩ = some v := by
    rw [valueOf, hvalues, List.getD_eq_getElem?_getD, List.getElem?_map, hv]
    rfl
  have hvalue' : (g.play x' k').shared.valueOf ⟨j, hj⟩ = some v' := by
    rw [valueOf, hvalues', List.getD_eq_getElem?_getD, List.getElem?_map, hv']
    rfl
  split
  next hmark =>
    rw [decide_eq_true_eq] at hmark
    rw [hmark] at hslot
    exact ⟨valueOf_of_shared hb hphase hslot hvalue,
      valueOf_of_shared hb hphase' (hsame ▸ hslot) hvalue'⟩
  next hmark =>
    rw [decide_eq_true_eq] at hmark
    exact valueOf_eq hb hsame (hslot ▸ hmark) hvalue hvalue'

end Game

namespace SequentialCount

theorem mapM_eq_ok {ε α β : Type} {f : α → Except ε β} {g : α → β} {l : List α}
    (h : ∀ a ∈ l, f a = .ok (g a)) : l.mapM f = .ok (l.map g) := by
  induction l with
  | nil => rfl
  | cons a l ih =>
    rw [List.mapM_cons, h a List.mem_cons_self,
      ih fun b hb => h b (List.mem_cons_of_mem _ hb)]
    rfl

theorem applyOrder_eq {cr : CommitReveal Nonce} {r : Nonce}
    (hlength : 2 ≤ cr.hashes.length ∧ cr.hashes.length ≤ 255) (h : cr.randomBytes = some r)
    {p : Participant} (hp : Codec.leNat (r.bytes.take 8) % cr.hashes.length = p.val) :
    ∃ order, applyOrder cr = .ok order ∧ order.head? = some p := by
  have hstart : cr.randomRange cr.hashes.length = some p.val := by
    rw [randomRange, randomU64, h, ← hp]
    rfl
  have hlt : ∀ offset, (p.val + offset) % cr.hashes.length < 256 := fun offset => by
    have := Nat.mod_lt (p.val + offset) (by omega : 0 < cr.hashes.length)
    omega
  refine ⟨(List.range cr.hashes.length).map fun offset =>
    ⟨(p.val + offset) % cr.hashes.length, hlt offset⟩, ?_, ?_⟩
  · rw [applyOrder]
    simp only [hstart, okOr, ok_bind]
    exact mapM_eq_ok fun offset _ => dif_pos (hlt offset)
  · rw [List.head?_map, List.head?_range, if_neg (by omega), Option.map_some]
    congr 1
    apply Fin.ext
    change (p.val + 0) % cr.hashes.length = p.val
    rw [Nat.add_zero, ← hp, Nat.mod_mod]

theorem leNat_padded (b : UInt8) :
    Codec.leNat ((FixedBytes.padded 32 [b]).bytes.take 8) = b.toNat := by
  simp [FixedBytes.padded, Codec.leNat]

end SequentialCount

/-- The random bytes of a complete round are a bijection of the honest nonce, and sequential-count
can start with every participant, exactly when the honest commitment is held by an odd number
of participants when the reveals begin.  Otherwise the coalition has fixed the result. -/
theorem joint_randomness_bijective_iff (g : Game) (hbinding : g.Binding) (result : Nonce → Nonce)
    (hresult : ∀ x, ∃ k, (g.play x k).shared.randomBytes = some (result x)) :
    (Function.Bijective result ∧ ∀ p : Participant, p.val < g.n → ∃ x k order,
        SequentialCount.applyOrder (g.play x k).shared = .ok order ∧ order.head? = some p) ↔
      ∀ x k, (g.play x k).shared.phase = .revealing →
        Odd ((g.play x k).shared.sharers g.me) := by
  obtain ⟨k₀, hk₀⟩ := hresult 0
  -- the commitments are the same in every run
  have hsharers : ∀ x k, (g.play x k).shared.phase ≠ .idle →
      (g.play x k).shared.sharers g.me = (g.play 0 k₀).shared.sharers g.me := by
    intro x k hidle
    have hidle' : (g.play 0 k₀).shared.phase ≠ .idle := by
      rw [(randomBytes_eq_some hk₀).1]
      exact nofun
    rw [sharers, sharers, Game.hashOf_me hidle, Game.hashOf_me hidle',
      Game.hashes_eq hidle hidle']
  have hxor : ∀ x, (result 0).xor (result x) =
      if Odd ((g.play 0 k₀).shared.sharers g.me) then Nonce.xor 0 x else 0 := by
    intro x
    obtain ⟨k, hk⟩ := hresult x
    exact Game.randomBytes_xor hbinding hk₀ hk
  constructor
  · rintro ⟨hbijective, -⟩ x k hphase
    rw [hsharers x k (by rw [hphase]; exact nofun)]
    by_contra hodd
    -- the result is the same for every nonce
    have hconst : ∀ x, result 0 = result x := by
      intro x
      have h := hxor x
      rw [if_neg hodd, Nonce.xor_eq_iff, Nonce.zero_xor] at h
      exact h
    have hne : (0 : Nonce) ≠ .replicate 32 1 := by decide
    exact hne (hbijective.1 (hconst _))
  · intro hall
    have hodd : Odd ((g.play 0 k₀).shared.sharers g.me) := by
      obtain ⟨k, hphase⟩ := Game.exists_revealing (randomBytes_eq_some hk₀).1
      rw [← hsharers 0 k (by rw [hphase]; exact nofun)]
      exact hall 0 k hphase
    have hresult_eq : ∀ x, result x = x.xor (result 0) := by
      intro x
      have h := hxor x
      rw [if_pos hodd, Nonce.zero_xor, Nonce.xor_comm, Nonce.xor_eq_iff] at h
      exact h
    have hbijective : Function.Bijective result := by
      constructor
      · intro x x' h
        rw [hresult_eq, hresult_eq x', Nonce.xor_eq_iff, Nonce.xor_xor_cancel] at h
        exact h
      · intro r
        exact ⟨r.xor (result 0), by rw [hresult_eq, Nonce.xor_xor_cancel]⟩
    refine ⟨hbijective, fun p hp => ?_⟩
    have hpn : p.val < 256 := p.isLt
    obtain ⟨x, hx⟩ := hbijective.2 (.padded 32 [UInt8.ofNat p.val])
    obtain ⟨k, hk⟩ := hresult x
    have hlength := g.length_hashes x k
    obtain ⟨order, horder⟩ := SequentialCount.applyOrder_eq (by rw [hlength]; exact g.bounds) hk
      (p := p) (by
        rw [hx, SequentialCount.leNat_padded, hlength, UInt8.toNat_ofNat', Nat.mod_eq_of_lt hpn,
          Nat.mod_eq_of_lt hp])
    exact ⟨x, k, order, horder⟩

/-! ## Three participants -/

namespace Play

private theorem mem_sent_step {g : Game} {x : Nonce} {s : Play} {turn : GameTurn}
    {m : Participant × CommitMessage Nonce} (h : m ∈ (s.step g x turn).sent) :
    m ∈ s.sent ∨ m.1 = g.me ∨ turn = .other m.1 m.2 := by
  cases turn with
  | honest =>
    have hemit : ∀ stash msg, m ∈ (s.emit g stash msg).sent → m ∈ s.sent ∨ m.1 = g.me := by
      intro stash msg hm
      obtain hm | hm := List.mem_append.1 hm
      · exact .inl hm
      · exact .inr (List.mem_singleton.1 hm ▸ rfl)
    rw [step, speak] at h
    split at h <;> split at h
    · exact (hemit _ _ h).imp_right .inl
    · exact .inl h
    · exact (hemit _ _ h).imp_right .inl
    · exact .inl h
  | deliver =>
    rw [step] at h
    split at h
    · exact .inl h
    · exact .inl h
  | other source msg =>
    rw [step] at h
    split at h
    · exact .inl h
    · obtain h | h := List.mem_append.1 h
      · exact .inl h
      · rw [List.mem_singleton.1 h]
        exact .inr (.inr rfl)

end Play

namespace Sample

abbrev salt (i : UInt8) : Salt := .replicate 32 i

def nonceHash : Nonce → Salt → Commitment :=
  computeHash referencePrimitives FixedBytes.bytes

/-- A commitment drawn for the honest opening, the reference hash for all others. -/
def oracle (x v : Nonce) (r : Salt) : Commitment :=
  if v = x ∧ r = salt 0 then .replicate 32 7
  else nonceHash v r

theorem oracle_honest (x : Nonce) : oracle x x (salt 0) = .replicate 32 7 :=
  if_pos ⟨rfl, rfl⟩

theorem oracle_other (x : Nonce) {i : UInt8} (h : salt i ≠ salt 0) :
    oracle x 0 (salt i) = nonceHash 0 (salt i) :=
  if_neg fun heq => h heq.2

/-- Participant 1 repeats the commitment of participant 0 and then its opening, or
commits to a nonce of its own; participant 2 commits to zero. -/
def strategy (copied : Bool) (k : ℕ) (sent : List (Participant × CommitMessage Nonce)) : GameTurn :=
  match k with
  | 0 | 4 => .honest
  | 2 => .other 1 (.commit (if copied then .replicate 32 7
      else nonceHash 0 (salt 1)))
  | 3 => .other 2 (.commit (nonceHash 0 (salt 2)))
  | 6 =>
    if copied then
      match sent.getLast? with
      | some (_, msg) => .other 1 msg
      | none => .deliver
    else .other 1 (.reveal 0 (salt 1))
  | 7 => .other 2 (.reveal 0 (salt 2))
  | _ => .deliver

def game (copied : Bool) : Game where
  n := 3
  bounds := by decide
  me := 0
  member := by decide
  salt := salt 0
  oracle := oracle
  hides x x' := by rw [oracle_honest, oracle_honest]
  strategy := strategy copied

theorem mem_openings {copied : Bool} {x v : Nonce} {k : ℕ} {p : Participant} {r : Salt}
    (h : (p, .reveal v r) ∈ ((game copied).play x k).sent) :
    (v = x ∧ r = salt 0) ∨ (v = 0 ∧ r = salt 1) ∨ (v = 0 ∧ r = salt 2) := by
  induction k generalizing p with
  | zero => cases h
  | succ k ih =>
    obtain ⟨log, hfair⟩ := (game copied).exists_fair x (k + 1)
    obtain hm | hm | hm := Play.mem_sent_step h
    · exact ih hm
    · obtain heq | heq := hfair.own (.reveal v r) (hm ▸ h)
      · cases heq
      · cases heq
        exact .inl ⟨rfl, rfl⟩
    · change strategy copied k ((game copied).play x k).sent = _ at hm
      unfold strategy at hm
      split at hm
      · cases hm
      · cases hm
      · cases hm
      · cases hm
      · split at hm
        · split at hm
          next q msg hlast =>
            cases hm
            exact ih (List.mem_of_mem_getLast? hlast)
          · cases hm
        · cases hm
          exact .inr (.inl ⟨rfl, rfl⟩)
      · cases hm
        exact .inr (.inr ⟨rfl, rfl⟩)
      · cases hm

theorem game_binding (copied : Bool) : (game copied).Binding := by
  have h0 : ∀ x, oracle x x (salt 0) = .replicate 32 7 := oracle_honest
  have h1 : ∀ x, oracle x 0 (salt 1) = _ := fun x => oracle_other x (by decide)
  have h2 : ∀ x, oracle x 0 (salt 2) = _ := fun x => oracle_other x (by decide)
  intro x x' k k' p p' v v' r r' hsent hsent' heq
  change oracle x v r = oracle x' v' r' at heq
  obtain ⟨rfl, rfl⟩ | ⟨rfl, rfl⟩ | ⟨rfl, rfl⟩ := mem_openings hsent <;>
    obtain ⟨rfl, rfl⟩ | ⟨rfl, rfl⟩ | ⟨rfl, rfl⟩ := mem_openings hsent' <;>
    simp only [h0, h1, h2] at heq
  · exact .inr ⟨rfl, rfl, rfl, rfl⟩
  · exact absurd heq (by decide +kernel)
  · exact absurd heq (by decide +kernel)
  · exact absurd heq (by decide +kernel)
  · exact .inl ⟨rfl, rfl⟩
  · exact absurd heq (by decide +kernel)
  · exact absurd heq (by decide +kernel)
  · exact absurd heq (by decide +kernel)
  · exact .inl ⟨rfl, rfl⟩

def second (copied : Bool) : Commitment :=
  if copied then .replicate 32 7 else nonceHash 0 (salt 1)

def revealing (copied : Bool) (x : Nonce) (values : List (Option Nonce))
    (h : values.length = 3) : CommitReveal Nonce :=
  ⟨.revealing, 0, [some (oracle x x (salt 0)), some (second copied), some (nonceHash 0 (salt 2))],
    values, h⟩

def commits (copied : Bool) (x : Nonce) : List (Participant × CommitMessage Nonce) :=
  [(0, .commit (oracle x x (salt 0))), (1, .commit (second copied)),
    (2, .commit (nonceHash 0 (salt 2)))]

theorem play_game_four (copied : Bool) (x : Nonce) :
    (game copied).play x 4 =
      ⟨revealing copied x [none, none, none] rfl, ⟨some x, some (salt 0), some 0, none⟩, [],
        commits copied x⟩ :=
  rfl

theorem play_game_other {copied : Bool} {x : Nonce} {k : ℕ} {p : Participant}
    {values : List (Option Nonce)} {h : values.length = 3} {v : Nonce} {r : Salt}
    (hturn : strategy copied k ((game copied).play x k).sent = .other p (.reveal v r)) (hp : p ≠ 0)
    (hshared : ((game copied).play x k).shared = revealing copied x values h)
    (ht : TakesReveal (oracle x) (revealing copied x values h) p v r) :
    ((game copied).play x (k + 1)).shared = (revealing copied x values h).putValue p v := by
  change (Play.step (game copied) x _ (strategy copied k _)).shared = _
  rw [hturn, Play.step, if_neg (show ¬ p = (game copied).me from hp), hshared]
  exact congrArg Prod.snd (handle_reveal ht)

theorem play_game_six (copied : Bool) (x : Nonce) :
    (game copied).play x 6 =
      ⟨revealing copied x [some x, none, none] rfl, ⟨some x, some (salt 0), some 0, some 0⟩, [],
        commits copied x ++ [(0, .reveal x (salt 0))]⟩ := by
  have h5 : (game copied).play x 5 =
      ⟨revealing copied x [none, none, none] rfl, ⟨some x, some (salt 0), some 0, some 0⟩,
        [.reveal x (salt 0)], commits copied x ++ [(0, .reveal x (salt 0))]⟩ := by
    change ((game copied).play x 4).speak (game copied) x = _
    rw [play_game_four]
    rfl
  have ht : TakesReveal (oracle x) (revealing copied x [none, none, none] rfl) 0 x (salt 0) :=
    ⟨by simp [revealing], rfl, rfl, rfl⟩
  change ((game copied).play x 5).step (game copied) x .deliver = _
  rw [h5, Play.step]
  exact congrArg (fun cr => Play.mk cr _ _ _) (congrArg Prod.snd (handle_reveal ht))

theorem play_game_seven (copied : Bool) (x : Nonce) :
    ((game copied).play x 7).shared =
      revealing copied x [some x, some (if copied then x else 0), none] rfl := by
  have hshared := congrArg Play.shared (play_game_six copied x)
  cases copied with
  | false =>
    refine play_game_other (p := 1) (v := 0) (r := salt 1) rfl (by decide) hshared
      ⟨by simp [revealing], rfl, rfl, ?_⟩
    rw [oracle_other x (by decide)]
    simp [hashOf, revealing, second]
  | true =>
    refine play_game_other (p := 1) (v := x) (r := salt 0) ?_ (by decide) hshared
      ⟨by simp [revealing], rfl, rfl, ?_⟩
    · rw [play_game_six]
      rfl
    · rw [oracle_honest]
      simp [hashOf, revealing, second]

theorem randomBytes_game (copied : Bool) (x : Nonce) :
    ((game copied).play x 8).shared.randomBytes = some (if copied then 0 else x) := by
  have ht : TakesReveal (oracle x)
      (revealing copied x [some x, some (if copied then x else 0), none] rfl) 2 0 (salt 2) := by
    refine ⟨by simp [revealing], rfl, rfl, ?_⟩
    rw [oracle_other x (by decide)]
    simp [hashOf, revealing]
  rw [play_game_other rfl (by decide) (play_game_seven copied x) ht]
  change some (((Nonce.xor 0 x).xor (if copied then x else 0)).xor 0) = _
  cases copied with
  | false => simp
  | true => simp

end Sample

open Sample in
/-- A participant that repeats the honest commitment fixes the result.  The oracle hides and
binds and the round is completed whatever the honest nonce, but its random bytes are zero and
sequential-count starts with participant 0. -/
theorem joint_randomness_forced :
    (game true).Binding ∧
      (∀ x, ((game true).play x 8).shared.randomBytes = some 0 ∧
        ∃ order, SequentialCount.applyOrder ((game true).play x 8).shared = .ok order ∧
          order.head? = some 0) ∧
      ∀ result : Nonce → Nonce,
        (∀ x, ∃ k, ((game true).play x k).shared.randomBytes = some (result x)) →
          ¬ Function.Bijective result := by
  have hbytes : ∀ x, ((game true).play x 8).shared.randomBytes = some 0 := randomBytes_game true
  refine ⟨game_binding true, fun x => ⟨hbytes x, ?_⟩, fun result hresult h => ?_⟩
  · have hlength : ((game true).play x 8).shared.hashes.length = 3 :=
      (game true).length_hashes x 8
    exact SequentialCount.applyOrder_eq (by rw [hlength]; decide) (hbytes x)
      (by rw [hlength]; decide)
  · have hzero : ∀ x, result x = 0 := by
      intro x
      obtain ⟨k, hk⟩ := hresult x
      have hxor := Game.randomBytes_xor (game_binding true) hk (hbytes x)
      rwa [Nonce.xor_self, ite_self, Nonce.xor_zero] at hxor
    have hne : (0 : Nonce) ≠ .replicate 32 1 := by decide
    exact hne (h.1 ((hzero _).trans (hzero _).symm))

open Sample in
theorem joint_randomness_bijective_iff_own :
    (Function.Bijective (@id Nonce) ∧ ∀ p : Participant, p.val < (game false).n → ∃ x k order,
        SequentialCount.applyOrder ((game false).play x k).shared = .ok order ∧
          order.head? = some p) ↔
      ∀ x k, ((game false).play x k).shared.phase = .revealing →
        Odd (((game false).play x k).shared.sharers (game false).me) :=
  joint_randomness_bijective_iff (game false) (game_binding false) id fun x =>
    ⟨8, randomBytes_game false x⟩

end Arena0
