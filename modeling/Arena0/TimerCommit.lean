import Arena0.Emission
import Arena0.Records
import Arena0.Timers

/-!
# Committing the timers of a certified step

Every limit of an effect is checked when the guest emits it, before its step is
staged and signed, except two that only the store checks when the certified step
is committed: the room for active timers and the range of the deadline.  A signed
step can be committed exactly if its timers fit both.
-/

namespace Arena0

open Borsh Fallible Actor ExecutionState

variable {κ : Primitives} {effects : List (UInt32 × Effect)} {ordinal : UInt32} {nowMs : UInt64}

/-- The timers fit the table and their deadlines fit a database integer. -/
def TimersFit (rows : ℕ) (nowMs : UInt64) (effects : List (UInt32 × Effect)) : Prop :=
  rows + effects.countP (·.2.isSetTimer) ≤ maxActiveTimers ∧
    ∀ ordinal delayMs timer, (ordinal, .setTimer delayMs timer) ∈ effects →
      nowMs.toNat + delayMs.toNat < 2 ^ 63

theorem timersFit_setTimer {rows : ℕ} {delayMs : UInt64}
    {timer : TimerPayload} :
    TimersFit rows nowMs ((ordinal, .setTimer delayMs timer) :: effects) ↔
      nowMs.toNat + delayMs.toNat < 2 ^ 63 ∧ TimersFit (rows + 1) nowMs effects := by
  have hcount : ((ordinal, Effect.setTimer delayMs timer) :: effects).countP (·.2.isSetTimer) =
      effects.countP (·.2.isSetTimer) + 1 := List.countP_cons_of_pos rfl
  unfold TimersFit
  rw [hcount]
  constructor
  · rintro ⟨hroom, hdeadlines⟩
    exact ⟨hdeadlines _ _ _ List.mem_cons_self, by omega,
      fun o d t hmem => hdeadlines o d t (List.mem_cons_of_mem _ hmem)⟩
  · rintro ⟨hdeadline, hroom, hdeadlines⟩
    refine ⟨by omega, fun o d t hmem => ?_⟩
    rcases List.mem_cons.1 hmem with heq | hmem
    · cases heq
      exact hdeadline
    · exact hdeadlines o d t hmem

theorem timersFit_other {rows : ℕ} {effect : Effect}
    (h : effect.isSetTimer = false) :
    TimersFit rows nowMs ((ordinal, effect) :: effects) ↔ TimersFit rows nowMs effects := by
  have hcount : ((ordinal, effect) :: effects).countP (·.2.isSetTimer) =
      effects.countP (·.2.isSetTimer) := List.countP_cons_of_neg (by simp [h])
  unfold TimersFit
  rw [hcount]
  refine and_congr_right fun _ => ⟨fun hall o d t hmem => ?_, fun hall o d t hmem => ?_⟩
  · exact hall o d t (List.mem_cons_of_mem _ hmem)
  · rcases List.mem_cons.1 hmem with heq | hmem
    · cases heq
      cases h
    · exact hall o d t hmem

theorem checkedAdd_of_lt {a b : UInt64} (h : a.toNat + b.toNat < 2 ^ 64) :
    checkedAdd a b = some (a + b) :=
  if_pos h

namespace Db

theorem persistTimer_isOk_iff {db : Db κ} {position version nowMs delayMs : UInt64}
    {timer : TimerPayload} (hversion : version.toNat < 2 ^ 63)
    (htimer : TimerPayload.codec.fits timer = true)
    (hnew : ∀ row ∈ db.timers, row.timerId ≠ timerIdOf κ db.state.executionId position ordinal) :
    (∃ db', db.persistTimer position version ordinal delayMs timer nowMs = .ok db') ↔
      db.timers.length < maxActiveTimers ∧ nowMs.toNat + delayMs.toNat < 2 ^ 63 := by
  have hfind : db.timers.find? (·.timerId = timerIdOf κ db.state.executionId position ordinal) =
      none := List.find?_eq_none.2 fun row hrow => by simpa using hnew row hrow
  have hlength := (TimerPayload.within htimer).length_le
  have hrecord : 8 + maxTerminalReasonBytes + maxTimerPayloadBytes ≤ maxTimerRecordBytes := by decide
  simp only [persistTimer, encodeBorsh, bind_eq_ok, okOr_eq_ok, ensure_eq_ok, sqliteU64, hfind,
    pure_eq_ok, Codec.toVec_eq_some_iff]
  constructor
  · rintro ⟨_, deadline, hdeadline, -, -, -, -, -, hroom, -, hfits, -⟩
    rw [checkedAdd_eq_some hdeadline] at hfits
    exact ⟨hroom, hfits⟩
  · rintro ⟨hroom, hfits⟩
    have hsum : (nowMs + delayMs).toNat = nowMs.toNat + delayMs.toNat := by
      rw [UInt64.toNat_add]
      exact Nat.mod_eq_of_lt (by omega)
    exact ⟨_, _, checkedAdd_of_lt (by omega), _, ⟨htimer, rfl⟩, (), hlength.trans hrecord, (), hroom,
      (), hsum ▸ hfits, (), hversion, rfl⟩

theorem persistEffects_isOk_iff {db : Db κ} {position version nowMs : UInt64}
    (hversion : version.toNat < 2 ^ 63)
    (hvalid : ∀ p ∈ effects, Effect.codec.fits p.2 = true)
    (hbounded : db.timers.length ≤ maxActiveTimers)
    (hnodup : ((db.timers ++ (timerArmings κ db.state.executionId position version nowMs
      effects).map Prod.snd).map TimerRow.timerId).Nodup) :
    (∃ db', db.persistEffects position version nowMs effects = .ok db') ↔
      TimersFit db.timers.length nowMs effects := by
  induction effects generalizing db with
  | nil => simp [persistEffects, TimersFit, hbounded]
  | cons p effects ih =>
    obtain ⟨ordinal, effect⟩ := p
    obtain ⟨heffect, hrest⟩ := List.forall_mem_cons.1 hvalid
    cases effect with
    | setTimer delayMs timer =>
      have htimer : TimerPayload.codec.fits timer = true := by
        have hfits : (true && TimerPayload.codec.fits timer) = true := heffect
        simpa using hfits
      have hnew : ∀ row ∈ db.timers,
          row.timerId ≠ timerIdOf κ db.state.executionId position ordinal := by
        intro row hrow heq
        rw [List.map_append, List.nodup_append] at hnodup
        exact hnodup.2.2 _ (List.mem_map_of_mem hrow) _ List.mem_cons_self heq
      have harm : (∃ mid, db.persistTimer position version ordinal delayMs timer nowMs = .ok mid) ↔
          db.timers.length < maxActiveTimers ∧ nowMs.toNat + delayMs.toNat < 2 ^ 63 :=
        persistTimer_isOk_iff hversion htimer hnew
      have hstep : ∀ {mid : Db κ},
          db.persistTimer position version ordinal delayMs timer nowMs = .ok mid →
          ((∃ db', mid.persistEffects position version nowMs effects = .ok db') ↔
            TimersFit (db.timers.length + 1) nowMs effects) := by
        intro mid hmid
        obtain ⟨-, hroom, rfl⟩ := persistTimer_new hmid hnew
        have hlength : (db.timers ++ [(⟨timerIdOf κ db.state.executionId position ordinal,
            nowMs + delayMs, TimerPayload.codec.encode timer, version⟩ : TimerRow)]).length =
            db.timers.length + 1 := List.length_append
        rw [← hlength]
        refine ih hrest (hlength ▸ hroom) ?_
        simpa [timerArmings, List.append_assoc] using hnodup
      rw [timersFit_setTimer]
      constructor
      · rintro ⟨db', h⟩
        simp only [persistEffects, bind_eq_ok] at h
        obtain ⟨mid, hmid, h⟩ := h
        exact ⟨(harm.1 ⟨mid, hmid⟩).2, (hstep hmid).1 ⟨db', h⟩⟩
      · rintro ⟨hdeadline, hfits⟩
        have hroom : db.timers.length + 1 ≤ maxActiveTimers := (Nat.le_add_right _ _).trans hfits.1
        obtain ⟨mid, hmid⟩ := harm.2 ⟨hroom, hdeadline⟩
        obtain ⟨db', h⟩ := (hstep hmid).2 hfits
        refine ⟨db', ?_⟩
        simp only [persistEffects, bind_eq_ok]
        exact ⟨mid, hmid, h⟩
    | _ =>
      rw [timersFit_other rfl]
      exact ih hrest hbounded hnodup

/-- The effects of a certified step are persisted after everything else of its transaction. -/
theorem persistInTransaction_certified (db : Db κ) (expected nowMs : UInt64)
    (next : ExecutionState κ) (proposal : SharedProposal κ) :
    db.persistInTransaction expected next (.stepSignature (some proposal)) nowMs =
      (do
        let written ← db.persistInTransaction expected next
          (.stepSignature (some { proposal with effects := [] })) nowMs
        written.persistEffects proposal.eventPosition next.version nowMs proposal.effects) := by
  simp only [persistInTransaction, persistChange, commitStagedEvent, bind_assoc, persistEffects]
  rfl

end Db

theorem ExecutionState.ProposalRecoverable.effects_fit {s : ExecutionState κ}
    {proposal : SharedProposal κ} (h : s.ProposalRecoverable proposal) :
    ∀ p ∈ proposal.effects, Effect.codec.fits p.2 = true := by
  have heffects := h.effects
  simp only [validateEffects, bind_eq_ok] at heffects
  obtain ⟨_, -, _, -, hbudget⟩ := heffects
  intro p hp
  exact ((checkEffectBudget_eq_ok.1 hbudget).2.1 p.2 (List.mem_map_of_mem hp)).2

theorem Host.Sound.certified_fits {keys : HostKeys} {h : Host κ} (hs : h.Sound keys)
    {input : Input} {next : ExecutionState κ} {committed : SharedProposal κ}
    (hmove : Move h.db nowMs h.db.state input next (.stepSignature (some committed))) :
    ∀ p ∈ committed.effects, Effect.codec.fits p.2 = true := by
  cases hmove with
  | @certified proposal signed certificate hproposal hsigned hcertifies =>
    have hcommitted : (signed.under certificate).effects = proposal.effects := by
      rw [hsigned]
      rfl
    rw [hcommitted]
    exact (hs.recoverable.proposal proposal hproposal).effects_fit
  | kept hchange => rcases hchange with hchange | ⟨artifact, hchange⟩ <;> cases hchange

/-- A step that holds all its signatures and whose transaction would be accepted without its
effects is committed with them exactly if its timers fit the table and the clock. -/
theorem certified_step_commits_iff_timers_fit {keys : HostKeys} {db : Db κ}
    (hcreated : Host.Created keys db) (inputs : List (UInt64 × Input)) {nowMs : UInt64}
    {input : Input} {next : ExecutionState κ} {committed : SharedProposal κ}
    {answer : Option ExecDeliveryRejection}
    (hdecide : Actor.handle keys ((Host.initial db).run keys inputs).db
      ((Host.initial db).run keys inputs).db.state nowMs input
        = .commit next (.stepSignature (some committed)) answer)
    (hfree : Set.InjOn (timerIdOfLabel κ db.state.executionId)
      (timerLabels ((Host.initial db).turns keys inputs ++
        [⟨⟨((Host.initial db).run keys inputs).db.state, input, next⟩, nowMs,
          .stepSignature (some committed)⟩])))
    (hrest : ∃ written, ((Host.initial db).run keys inputs).db.persistInTransaction
      ((Host.initial db).run keys inputs).db.state.version next
      (.stepSignature (some { committed with effects := [] })) nowMs = .ok written) :
    (∃ written, ((Host.initial db).run keys inputs).db.persistInTransaction
      ((Host.initial db).run keys inputs).db.state.version next
      (.stepSignature (some committed)) nowMs = .ok written) ↔
      TimersFit ((Host.initial db).run keys inputs).db.timers.length nowMs committed.effects := by
  have hsound := hcreated.sound.run inputs
  obtain ⟨hlabels, hrows, -⟩ :=
    hcreated.timers_tracked inputs (hfree.mono (timerLabels_append _ _))
  generalize (Host.initial db).run keys inputs = h at *
  generalize (Host.initial db).turns keys inputs = turns at *
  have hmove := handle_move hdecide
  have hexecution := (handle_commit hdecide).sameExecution.executionId
  have hnodup := (hlabels.step hmove hexecution).nodup_ids hfree
  rw [List.flatMap_append, List.flatMap_singleton] at hnodup
  have hsub : h.db.timers.Sublist (turns.flatMap Turn.armed) := by
    rw [hrows.rows]
    exact List.filter_sublist
  replace hnodup := hnodup.sublist ((hsub.append_right _).map _)
  obtain ⟨written, hwritten⟩ := hrest
  obtain ⟨hversion, hwrote⟩ := Db.persistInTransaction_eq_ok hwritten
  -- without effects the transaction leaves the timers alone
  have htimers : written.timers = h.db.timers := by
    have hold : (h.db.timers.map TimerRow.timerId).Nodup :=
      hnodup.sublist ((List.sublist_append_left _ _).map _)
    obtain ⟨-, -, hrows⟩ := @Db.persistInTransaction_timers κ h.db written _
      ⟨⟨h.db.state, input, next⟩, nowMs, .stepSignature (some { committed with effects := [] })⟩
      hwritten nofun hrows.bounded
      (by simpa [Turn.armed, Turn.armings, timerArmings] using hold)
    simpa [Turn.armed, Turn.armings, timerArmings, Turn.fired] using hrows
  have hfits : (∃ db', written.persistEffects committed.eventPosition next.version nowMs
      committed.effects = .ok db') ↔ TimersFit written.timers.length nowMs committed.effects := by
    refine Db.persistEffects_isOk_iff hversion (hsound.certified_fits hmove) ?_ ?_
    · rw [htimers]
      exact hrows.bounded
    · rw [htimers, hwrote.state]
      exact hnodup
  rw [htimers] at hfits
  rw [← hfits, Db.persistInTransaction_certified, hwritten]
  rfl

theorem exists_ok_of_isOk {ε α : Type} {x : Except ε α} (h : x.isOk = true) : ∃ a, x = .ok a := by
  cases x with
  | ok a => exact ⟨a, rfl⟩
  | error e => cases h

namespace Sample

open Sandbox

def lastSignature : Input :=
  .receive (peer 2) (.stepSignature startCommitment (referenceBytes 48 1138100667352102205))
    (accepted [])

/-- The first participant after it staged and signed a session start with these effects. -/
def signedStart (effects : List Effect) : List (UInt64 × Input) :=
  [(0, .activate), (0, .start (accepted effects)), (0, .sign)]

def signedHost (effects : List Effect) : Host referencePrimitives :=
  (Host.initial (db 1)).run (keys 1) (signedStart effects)

theorem signedHost_eq (effects : List Effect) :
    signedHost effects = (Host.initial (db 1)).run (keys 1) (signedStart effects) := rfl

def certifies {α : Type} (test : ExecutionState referencePrimitives →
    SharedProposal referencePrimitives → Bool) : Decision referencePrimitives α → Bool
  | .commit next (.stepSignature (some committed)) _ => test next committed
  | _ => false

theorem exists_commit_of_certifies {α : Type} {d : Decision referencePrimitives α} {test}
    (h : certifies test d = true) : ∃ next committed answer,
      d = .commit next (.stepSignature (some committed)) answer ∧ test next committed = true := by
  unfold certifies at h
  split at h
  · exact ⟨_, _, _, rfl, h⟩
  · cases h

def fails {α : Type} : Decision referencePrimitives α → Bool
  | .fail _ => true
  | _ => false

end Sample

open Sample in
theorem certified_step_commits_iff_timers_fit_near :
    ∃ next committed answer,
      Actor.handle (keys 1) (signedHost [.setTimer 5 ⟨"tick", [1]⟩]).db
        (signedHost [.setTimer 5 ⟨"tick", [1]⟩]).db.state 1 lastSignature
          = .commit next (.stepSignature (some committed)) answer ∧
      committed.effects = [(0, .setTimer 5 ⟨"tick", [1]⟩)] ∧
      ∃ written, (signedHost [.setTimer 5 ⟨"tick", [1]⟩]).db.persistInTransaction
        (signedHost [.setTimer 5 ⟨"tick", [1]⟩]).db.state.version next
        (.stepSignature (some committed)) 1 = .ok written := by
  have hall : certifies (fun next committed =>
      decide (committed.effects = [(0, .setTimer 5 ⟨"tick", [1]⟩)]) &&
      decide (((Host.initial (db 1)).turns (keys 1)
        (signedStart [.setTimer 5 ⟨"tick", [1]⟩])).flatMap Turn.timerLabels = []) &&
      decide ((signedHost [.setTimer 5 ⟨"tick", [1]⟩]).db.timers = []) &&
      ((signedHost [.setTimer 5 ⟨"tick", [1]⟩]).db.persistInTransaction
        (signedHost [.setTimer 5 ⟨"tick", [1]⟩]).db.state.version next
        (.stepSignature (some { committed with effects := [] })) 1).isOk)
      (Actor.handle (keys 1) (signedHost [.setTimer 5 ⟨"tick", [1]⟩]).db
        (signedHost [.setTimer 5 ⟨"tick", [1]⟩]).db.state 1 lastSignature) = true := by
    decide +kernel
  obtain ⟨next, committed, answer, hdecide, htest⟩ := exists_commit_of_certifies hall
  simp only [Bool.and_eq_true, decide_eq_true_eq] at htest
  obtain ⟨⟨⟨heffects, hlabels⟩, htimers⟩, hrest⟩ := htest
  refine ⟨next, committed, answer, hdecide, heffects, ?_⟩
  rw [signedHost_eq] at hdecide hrest htimers ⊢
  refine (certified_step_commits_iff_timers_fit created_one
    (signedStart [.setTimer 5 ⟨"tick", [1]⟩]) hdecide ?_ ?_).2 ?_
  · -- one timer has one label
    intro a ha b hb _
    simp only [timerLabels, List.flatMap_append, hlabels, List.flatMap_singleton, List.nil_append,
      Turn.timerLabels, Turn.armings, heffects, timerArmings, Set.mem_ofPred_eq] at ha hb
    simp at ha hb
    rw [ha, hb]
  · exact exists_ok_of_isOk hrest
  · rw [heffects, htimers]
    refine ⟨by decide, fun ordinal delayMs timer hmem => ?_⟩
    cases List.mem_singleton.1 hmem
    decide

namespace Sample

open Sandbox

def farTimer : Effect := .setTimer 18446744073709551615 ⟨"", []⟩

def farScope : Except Trap HostState :=
  (dispatchScope limits (fun _ => .ok none) (peer 1) activeHost.db.state startEvent .host).run
    (fun _ => "") [([], .setTimer 18446744073709551615 0 0 0 0)]

end Sample

open Sample in
/-- The sandbox accepts the far timer, the step is staged, persisted and signed, and its last
signature decides its certification; the transaction fails on the timer alone, and the signed
participant can no longer stop. -/
theorem certified_step_not_committed :
    farScope.toOption.map Sandbox.HostState.effectQueue = some [farTimer] ∧
    ∃ next committed answer,
      Actor.handle (keys 1) (signedHost [farTimer]).db (signedHost [farTimer]).db.state 1
        lastSignature = .commit next (.stepSignature (some committed)) answer ∧
      (∃ written, (signedHost [farTimer]).db.persistInTransaction
        (signedHost [farTimer]).db.state.version next
        (.stepSignature (some { committed with effects := [] })) 1 = .ok written) ∧
      (signedHost [farTimer]).db.persistInTransaction (signedHost [farTimer]).db.state.version next
        (.stepSignature (some committed)) 1 = .error (.corruption "timer deadline overflows u64") ∧
      ∃ error, Actor.handle (keys 1) (signedHost [farTimer]).db (signedHost [farTimer]).db.state 1
        (.stop .abort 0 "done") = .fail error := by
  refine ⟨by decide +kernel, ?_⟩
  have hall : certifies (fun next committed =>
      ((signedHost [farTimer]).db.persistInTransaction (signedHost [farTimer]).db.state.version next
        (.stepSignature (some { committed with effects := [] })) 1).isOk &&
      decide (((signedHost [farTimer]).db.persistInTransaction
        (signedHost [farTimer]).db.state.version next (.stepSignature (some committed)) 1).map
          (fun _ => ()) = .error (.corruption "timer deadline overflows u64")))
      (Actor.handle (keys 1) (signedHost [farTimer]).db (signedHost [farTimer]).db.state 1
        lastSignature) = true := by decide +kernel
  have hstop : fails (Actor.handle (keys 1) (signedHost [farTimer]).db
      (signedHost [farTimer]).db.state 1 (.stop .abort 0 "done")) = true := by decide +kernel
  obtain ⟨next, committed, answer, hdecide, htest⟩ := exists_commit_of_certifies hall
  obtain ⟨hrest, herror⟩ := Bool.and_eq_true_iff.1 htest
  refine ⟨next, committed, answer, hdecide, exists_ok_of_isOk hrest, ?_, ?_⟩
  · have herror := of_decide_eq_true herror
    cases hpersist : (signedHost [farTimer]).db.persistInTransaction
        (signedHost [farTimer]).db.state.version next (.stepSignature (some committed)) 1 with
    | error error =>
      rw [hpersist] at herror
      exact congrArg Except.error (Except.error.inj herror)
    | ok written =>
      rw [hpersist] at herror
      cases herror
  · unfold fails at hstop
    split at hstop
    · rename_i error hfail
      exact ⟨error, hfail⟩
    · cases hstop

end Arena0
