import Arena0.Turns
import Arena0.ReferenceHost

/-!
# Timers

A committed timer effect arms one row, labelled by the position of its event and
its ordinal among the effects of the dispatch; a fired timer is consumed by the
transaction that records its event.  Labels are used once in a run, so the rows of
a host are at any time the timers armed so far without the ones that fired.
-/

namespace Arena0

open Borsh Fallible Actor ExecutionState

variable {κ : Primitives} {effects : List (UInt32 × Effect)} {turn : Turn κ}

/-! ## Armed rows -/

/-- The timers a list of committed effects arms, with their labels. -/
def timerArmings (κ : Primitives) (executionId : ExecId) (position version nowMs : UInt64)
    (effects : List (UInt32 × Effect)) : List ((UInt64 × UInt32) × TimerRow) :=
  effects.filterMap fun
    | (ordinal, .setTimer delayMs timer) =>
      some ((position, ordinal), ⟨Db.timerIdOf κ executionId position ordinal, nowMs + delayMs,
        TimerPayload.codec.encode timer, version⟩)
    | _ => none

def ordinalEffects (effects : List Effect) : List (UInt32 × Effect) :=
  effects.zipIdx.map fun p => (UInt32.ofNat p.2, p.1)

theorem mem_timerArmings {executionId : ExecId} {position version nowMs : UInt64}
    {arming : (UInt64 × UInt32) × TimerRow}
    (h : arming ∈ timerArmings κ executionId position version nowMs effects) :
    arming.1.1 = position ∧ arming.1.2 ∈ effects.map Prod.fst ∧
      arming.2.timerId = Db.timerIdOf κ executionId arming.1.1 arming.1.2 := by
  obtain ⟨⟨ordinal, effect⟩, hmem, heq⟩ := List.mem_filterMap.1 h
  cases effect with
  | setTimer delayMs timer =>
    cases heq
    exact ⟨rfl, List.mem_map_of_mem hmem, rfl⟩
  | _ => cases heq

theorem nodup_timerArmings {executionId : ExecId} {position version nowMs : UInt64}
    (h : (effects.map Prod.fst).Nodup) :
    ((timerArmings κ executionId position version nowMs effects).map Prod.fst).Nodup := by
  induction effects with
  | nil => exact List.nodup_nil
  | cons p effects ih =>
    obtain ⟨ordinal, effect⟩ := p
    obtain ⟨hnot, hrest⟩ := List.nodup_cons.1 h
    cases effect with
    | setTimer delayMs timer =>
      refine List.nodup_cons.2 ⟨fun hmem => hnot ?_, ih hrest⟩
      obtain ⟨arming, harming, hlabel⟩ := List.mem_map.1 hmem
      have hordinal := (mem_timerArmings harming).2.1
      rwa [hlabel] at hordinal
    | _ => exact ih hrest

theorem indexedDispatchEffects_eq_ok {effects : List Effect} {indexed : List (UInt32 × Effect)}
    (h : indexedDispatchEffects effects = .ok indexed) :
    effects.length ≤ 2 ^ 32 ∧ indexed = ordinalEffects effects := by
  simp only [indexedDispatchEffects, bind_eq_ok, ensure_eq_ok, pure_eq_ok] at h
  obtain ⟨_, hlength, rfl⟩ := h
  exact ⟨hlength, rfl⟩

theorem nodup_ordinalEffects {effects : List Effect} (h : effects.length ≤ 2 ^ 32) :
    ((ordinalEffects effects).map Prod.fst).Nodup := by
  have hordinals : (ordinalEffects effects).map Prod.fst =
      (List.range effects.length).map UInt32.ofNat := by
    rw [ordinalEffects, List.map_map, List.range_eq_range', ← List.zipIdx_map_snd 0 effects,
      List.map_map]
    rfl
  rw [hordinals]
  refine List.Nodup.map_on (fun a ha b hb heq => ?_) List.nodup_range
  rw [List.mem_range] at ha hb
  have hnat := congrArg UInt32.toNat heq
  rwa [UInt32.toNat_ofNat', UInt32.toNat_ofNat', Nat.mod_eq_of_lt (by omega),
    Nat.mod_eq_of_lt (by omega)] at hnat

/-! ## Rows written by a transaction -/

namespace Db

theorem persistTimer_new {db db' : Db κ} {position version nowMs delayMs : UInt64}
    {ordinal : UInt32} {timer : TimerPayload}
    (h : db.persistTimer position version ordinal delayMs timer nowMs = .ok db')
    (hnew : ∀ row ∈ db.timers, row.timerId ≠ timerIdOf κ db.state.executionId position ordinal) :
    nowMs ≤ nowMs + delayMs ∧ db.timers.length < maxActiveTimers ∧ db' = { db with
      timers := db.timers ++ [⟨timerIdOf κ db.state.executionId position ordinal, nowMs + delayMs,
        TimerPayload.codec.encode timer, version⟩] } := by
  simp only [persistTimer, encodeBorsh, bind_eq_ok, okOr_eq_ok, ensure_eq_ok,
    Codec.toVec_eq_some_iff] at h
  obtain ⟨deadline, hdeadline, payload, ⟨-, rfl⟩, _, -, h⟩ := h
  have hle : nowMs ≤ deadline := by
    rw [UInt64.le_iff_toNat_le, checkedAdd_eq_some hdeadline]
    exact Nat.le_add_right _ _
  have hdeadline : deadline = nowMs + delayMs := by
    unfold checkedAdd at hdeadline
    split at hdeadline
    · exact (Option.some.inj hdeadline).symm
    · cases hdeadline
  subst hdeadline
  split at h
  · rename_i row hrow
    exact absurd (by simpa using List.find?_some hrow) (hnew row (List.mem_of_find?_eq_some hrow))
  · simp only [bind_eq_ok, ensure_eq_ok, pure_eq_ok] at h
    obtain ⟨_, hroom, _, -, _, -, rfl⟩ := h
    exact ⟨hle, hroom, rfl⟩

theorem persistEffects_new {db db' : Db κ} {position version nowMs : UInt64}
    (h : db.persistEffects position version nowMs effects = .ok db')
    (hbounded : db.timers.length ≤ maxActiveTimers)
    (hnodup : ((db.timers ++ (timerArmings κ db.state.executionId position version nowMs
      effects).map Prod.snd).map TimerRow.timerId).Nodup) :
    (∀ arming ∈ timerArmings κ db.state.executionId position version nowMs effects,
        nowMs ≤ arming.2.deadlineMs) ∧
      db'.timers.length ≤ maxActiveTimers ∧ db' = { db with timers := db.timers ++
      (timerArmings κ db.state.executionId position version nowMs effects).map Prod.snd } := by
  induction effects generalizing db with
  | nil =>
    cases h
    exact ⟨List.forall_mem_nil _, hbounded, by simp [timerArmings]⟩
  | cons p effects ih =>
    obtain ⟨ordinal, effect⟩ := p
    cases effect with
    | setTimer delayMs timer =>
      simp only [persistEffects, bind_eq_ok] at h
      obtain ⟨mid, hmid, h⟩ := h
      obtain ⟨hle, hroom, rfl⟩ := persistTimer_new hmid (fun row hrow heq => by
        rw [List.map_append, List.nodup_append] at hnodup
        exact hnodup.2.2 _ (List.mem_map_of_mem hrow) _ List.mem_cons_self heq)
      obtain ⟨hdeadlines, hrest⟩ := ih h (by rw [List.length_append]; exact hroom) (by
        simpa [timerArmings, List.append_assoc] using hnodup)
      refine ⟨List.forall_mem_cons.2 ⟨hle, hdeadlines⟩, ?_⟩
      simpa [timerArmings, List.append_assoc] using hrest
    | _ => exact ih h hbounded hnodup

end Db

/-! ## The timers of a turn -/

namespace Turn

/-- The committed timers of a turn: those of a local dispatch, or of a certified step. -/
def armings (turn : Turn κ) : List ((UInt64 × UInt32) × TimerRow) :=
  match turn.change with
  | .dispatch _ effects _ =>
    if turn.next.proposal.isNone then
      timerArmings κ turn.next.executionId turn.before.eventPosition turn.next.version turn.nowMs
        (ordinalEffects effects)
    else []
  | .stepSignature (some proposal) =>
    timerArmings κ turn.next.executionId proposal.eventPosition turn.next.version turn.nowMs
      proposal.effects
  | _ => []

def armed (turn : Turn κ) : List TimerRow := turn.armings.map Prod.snd

def timerLabels (turn : Turn κ) : List (UInt64 × UInt32) := turn.armings.map Prod.fst

def fired (turn : Turn κ) : Option TimerId :=
  match turn.change with
  | .dispatch _ _ timerId => timerId
  | _ => none

/-- A turn stages a proposal: it keeps the effects of its dispatch that are no broadcasts. -/
def Stages (turn : Turn κ) (proposal : SharedProposal κ) : Prop :=
  turn.before.eventPosition = proposal.eventPosition ∧ ∃ event effects timerId,
    turn.change = .dispatch event effects timerId ∧ event.isAgreed = true ∧
    proposal.effects = (ordinalEffects effects).filter fun p => !p.2.isBroadcast

end Turn

theorem sub_one_of_checkedAdd {a b : UInt64} (h : checkedAdd a 1 = some b) : b - 1 = a := by
  unfold checkedAdd at h
  split at h
  · cases h
    exact UInt64.add_sub_cancel a 1
  · cases h

namespace Db

theorem consumeTimer_timers {db db' : Db κ} {timerId : TimerId}
    (h : db.consumeTimer timerId = .ok db') :
    db' = { db with timers := db.timers.filter (·.timerId ≠ timerId) } := by
  simp only [consumeTimer, bind_eq_ok, pure_eq_ok] at h
  obtain ⟨_, -, rfl⟩ := h
  rfl

/-- The rows after a transaction: the armed timers are added and the fired one is removed. -/
theorem persistInTransaction_timers {db db' : Db κ} {expected : UInt64} {turn : Turn κ}
    (h : db.persistInTransaction expected turn.next turn.change turn.nowMs = .ok db')
    (hposition : turn.event.isSome = true →
      checkedAdd turn.before.eventPosition 1 = some turn.next.eventPosition)
    (hbounded : db.timers.length ≤ maxActiveTimers)
    (hnodup : ((db.timers ++ turn.armed).map TimerRow.timerId).Nodup) :
    (∀ arming ∈ turn.armings, turn.nowMs ≤ arming.2.deadlineMs) ∧
      db'.timers.length ≤ maxActiveTimers ∧
      db'.timers = (db.timers ++ turn.armed).filter fun row => turn.fired ≠ some row.timerId := by
  obtain ⟨⟨s, input, t⟩, nowMs, change⟩ := turn
  simp only [persistInTransaction, persistState, bind_eq_ok, pure_eq_ok] at h
  obtain ⟨_, -, _, -, _, ⟨_, -, _, -, _, -, _, -, _, -, _, -, _, -, _, -, rfl⟩, h⟩ := h
  -- a change that arms and consumes nothing keeps the rows
  have hkeep : ∀ {rows : List TimerRow}, rows = db.timers →
      (∀ arming ∈ ([] : List ((UInt64 × UInt32) × TimerRow)), nowMs ≤ arming.2.deadlineMs) ∧
      rows.length ≤ maxActiveTimers ∧
        rows = (db.timers ++ []).filter fun row => (none : Option TimerId) ≠ some row.timerId := by
    rintro rows rfl
    exact ⟨List.forall_mem_nil _, hbounded, by simp⟩
  cases change with
  | state =>
    cases h
    exact hkeep rfl
  | publish artifact =>
    obtain ⟨-, receipts, -, rfl⟩ := persistTerminalPublication_eq_ok h
    exact hkeep rfl
  | stepSignature certified =>
    cases certified with
    | none =>
      cases h
      exact hkeep rfl
    | some proposal =>
      simp only [persistChange, commitStagedEvent, insertAgreedStep, bind_eq_ok, pure_eq_ok] at h
      obtain ⟨_, -, _, -, _, ⟨_, -, _, -, _, -, _, -, _, -, _, -, rfl⟩, heffects⟩ := h
      obtain ⟨hdeadlines, hbounded', rfl⟩ := persistEffects_new heffects hbounded hnodup
      exact ⟨hdeadlines, hbounded', by simp [Turn.fired, Turn.armed, Turn.armings]⟩
  | dispatch event effects timerId =>
    have hposition : t.eventPosition - 1 = s.eventPosition := sub_one_of_checkedAdd (hposition rfl)
    simp only [persistChange, bind_eq_ok] at h
    obtain ⟨_, -, _, hevent, h⟩ := h
    obtain ⟨-, rfl⟩ := insertEventRecord_eq_ok hevent
    have hconsume : ∀ {mid : Db κ},
        timerId.elim (.ok mid) mid.consumeTimer = .ok db' → mid.timers.length ≤ maxActiveTimers →
        db'.timers.length ≤ maxActiveTimers ∧
          db'.timers = mid.timers.filter fun row => timerId ≠ some row.timerId := by
      intro mid h hmid
      cases timerId with
      | none =>
        cases h
        exact ⟨hmid, by simp⟩
      | some id =>
        obtain rfl := consumeTimer_timers h
        refine ⟨(List.length_filter_le _ _).trans hmid, List.filter_congr fun row _ => ?_⟩
        simp [eq_comm]
    split at h
    · rename_i hfree
      simp only [bind_eq_ok, mapError_eq_ok] at h
      obtain ⟨indexed, hindexed, mid, hmid, h⟩ := h
      obtain ⟨-, rfl⟩ := indexedDispatchEffects_eq_ok hindexed
      rw [hposition] at hmid
      simp only [Turn.armed, Turn.armings, hfree, Option.isNone_none, if_true] at hnodup ⊢
      obtain ⟨hdeadlines, hbounded', rfl⟩ := persistEffects_new hmid hbounded hnodup
      exact ⟨hdeadlines, hconsume (by cases timerId <;> exact h) hbounded'⟩
    · rename_i hstaged
      simp only [Turn.armed, Turn.armings, hstaged, Option.isNone_some, Bool.false_eq_true, if_false,
        List.map_nil, List.append_nil]
      simp only [bind_eq_ok, Except.ok.injEq] at h
      obtain ⟨mid, hmid, h⟩ := h
      have hrows := @hconsume mid (by cases timerId <;> exact h)
      subst hmid
      exact ⟨List.forall_mem_nil _, hrows hbounded⟩

end Db

/-! ## Runs -/

/-- The labels of a run so far are distinct, and a staged proposal will add later ones. -/
structure LabelsTracked (executionId : ExecId) (turns : List (Turn κ)) (s : ExecutionState κ) :
    Prop where
  executionId_eq : s.executionId = executionId
  nodup : (turns.flatMap Turn.timerLabels).Nodup
  positions : ∀ label ∈ turns.flatMap Turn.timerLabels, label.1 < s.eventPosition
  ids : ∀ turn ∈ turns, ∀ arming ∈ turn.armings,
    arming.2.timerId = Db.timerIdOf κ executionId arming.1.1 arming.1.2
  staged : ∀ proposal ∈ s.proposal, proposal.eventPosition < s.eventPosition ∧
    (∀ label ∈ turns.flatMap Turn.timerLabels, label.1 < proposal.eventPosition) ∧
    (proposal.effects.map Prod.fst).Nodup ∧ ∃ turn ∈ turns, turn.Stages proposal

theorem LabelsTracked.arm {executionId : ExecId} {turns : List (Turn κ)} {s : ExecutionState κ}
    (h : LabelsTracked executionId turns s) {position version nowMs : UInt64}
    (harmings : turn.armings = timerArmings κ executionId position version nowMs effects)
    (hfresh : ∀ label ∈ turns.flatMap Turn.timerLabels, label.1 < position)
    (hordinals : (effects.map Prod.fst).Nodup) :
    ((turns ++ [turn]).flatMap Turn.timerLabels).Nodup ∧
      (∀ label ∈ (turns ++ [turn]).flatMap Turn.timerLabels, label.1 ≤ position) ∧
      ∀ other ∈ turns ++ [turn], ∀ arming ∈ other.armings,
        arming.2.timerId = Db.timerIdOf κ executionId arming.1.1 arming.1.2 := by
  have hlabels : ∀ label ∈ turn.timerLabels, label.1 = position := by
    intro label hlabel
    obtain ⟨arming, harming, rfl⟩ := List.mem_map.1 hlabel
    rw [harmings] at harming
    exact (mem_timerArmings harming).1
  have hnodup : turn.timerLabels.Nodup := by
    rw [Turn.timerLabels, harmings]
    exact nodup_timerArmings hordinals
  rw [List.flatMap_append, List.flatMap_singleton, List.nodup_append]
  refine ⟨⟨h.nodup, hnodup, fun a ha b hb heq => ?_⟩, fun label hlabel => ?_, ?_⟩
  · have hlt := hfresh a ha
    rw [heq, hlabels b hb] at hlt
    exact UInt64.lt_irrefl _ hlt
  · rcases List.mem_append.1 hlabel with hlabel | hlabel
    · exact UInt64.le_of_lt (hfresh label hlabel)
    · exact UInt64.le_of_eq (hlabels label hlabel)
  · rw [List.forall_mem_append, List.forall_mem_singleton]
    refine ⟨h.ids, fun arming harming => ?_⟩
    rw [harmings] at harming
    exact (mem_timerArmings harming).2.2

section

variable {executionId : ExecId} {turns : List (Turn κ)} {db : Db κ} {nowMs : UInt64}
  {s t : ExecutionState κ} {input : Input} {change : Change κ}

theorem LabelsTracked.rest (h : LabelsTracked executionId turns s)
    (harmings : (⟨⟨s, input, t⟩, nowMs, change⟩ : Turn κ).armings = [])
    (hexecution : t.executionId = s.executionId) (hposition : t.eventPosition = s.eventPosition)
    (hproposal : ∀ proposal ∈ t.proposal, ∃ staged ∈ s.proposal,
      proposal = { staged with signatures := proposal.signatures }) :
    LabelsTracked executionId (turns ++ [⟨⟨s, input, t⟩, nowMs, change⟩]) t := by
  have hlabels : (turns ++ [(⟨⟨s, input, t⟩, nowMs, change⟩ : Turn κ)]).flatMap Turn.timerLabels =
      turns.flatMap Turn.timerLabels := by
    rw [List.flatMap_append, List.flatMap_singleton, Turn.timerLabels, harmings, List.map_nil,
      List.append_nil]
  refine ⟨hexecution.trans h.executionId_eq, ?_, ?_, ?_, ?_⟩
  · rw [hlabels]
    exact h.nodup
  · rw [hlabels, hposition]
    exact h.positions
  · rw [List.forall_mem_append, List.forall_mem_singleton, harmings]
    exact ⟨h.ids, List.forall_mem_nil _⟩
  · intro proposal hp
    obtain ⟨staged, hstaged, heq⟩ := hproposal proposal hp
    obtain ⟨hlt, hfresh, hordinals, turn, hturn, hstages⟩ := h.staged staged hstaged
    rw [hlabels, hposition, heq]
    exact ⟨hlt, hfresh, hordinals, turn, List.mem_append_left _ hturn, hstages⟩

/-- Every committed transition keeps the labels tracked. -/
theorem LabelsTracked.step (h : LabelsTracked executionId turns s)
    (hmove : Move db nowMs s input t change) (hexecution : t.executionId = s.executionId) :
    LabelsTracked executionId (turns ++ [⟨⟨s, input, t⟩, nowMs, change⟩]) t := by
  cases hmove with
  | @installed event result pendingId timerId hdispatched _ _ _ _ _ _ hproposal _ hposition =>
    obtain ⟨next, frame, happly, -⟩ := hdispatched.applied
    have hlength := (checkEffectBudget_eq_ok.1 (applyDispatch_eq_ok happly).1).1
    have hmax : maxEffects ≤ 2 ^ 32 := by decide
    have harmings : (⟨⟨s, input, t⟩, nowMs, .dispatch event result.effects timerId⟩ :
        Turn κ).armings = timerArmings κ executionId s.eventPosition t.version nowMs
          (ordinalEffects result.effects) := by
      simp only [Turn.armings, hproposal, Option.isNone_none, if_true]
      rw [hexecution, h.executionId_eq]
    obtain ⟨hnodup, hle, hids⟩ := h.arm harmings h.positions
      (nodup_ordinalEffects (hlength.trans hmax))
    refine ⟨hexecution.trans h.executionId_eq, hnodup, fun label hlabel => ?_, hids, ?_⟩
    · exact UInt64.lt_of_le_of_lt (hle label hlabel) (lt_of_checkedAdd_one hposition)
    · simp [hproposal]
  | @staged event result pendingId timerId proposal position version hdispatched hagreed _ _ _
      hstaged hposition ht =>
    have hproposal : t.proposal = some proposal := by rw [ht]
    have hnext : t.eventPosition = position := by rw [ht]
    have harmings : (⟨⟨s, input, t⟩, nowMs, .dispatch event result.effects timerId⟩ :
        Turn κ).armings = timerArmings κ executionId s.eventPosition t.version nowMs [] := by
      simp [Turn.armings, hproposal, timerArmings]
    obtain ⟨hnodup, -, hids⟩ := h.arm harmings h.positions List.nodup_nil
    have hlabels : (turns ++ [(⟨⟨s, input, t⟩, nowMs, .dispatch event result.effects timerId⟩ :
        Turn κ)]).flatMap Turn.timerLabels = turns.flatMap Turn.timerLabels := by
      rw [List.flatMap_append, List.flatMap_singleton, Turn.timerLabels, harmings]
      exact List.append_nil _
    obtain ⟨indexed, hindexed, heffects⟩ := hstaged.effects_eq
    obtain ⟨hlength, rfl⟩ := indexedDispatchEffects_eq_ok hindexed
    refine ⟨hexecution.trans h.executionId_eq, hnodup, ?_, hids, ?_⟩
    · rw [hlabels, hnext]
      exact fun label hlabel =>
        UInt64.lt_trans (h.positions label hlabel) (lt_of_checkedAdd_one hposition)
    · rw [hproposal]
      intro p hp
      cases hp
      rw [hlabels, hnext, hstaged.position_eq]
      refine ⟨lt_of_checkedAdd_one hposition, h.positions, ?_, _,
        List.mem_append_right _ (List.mem_singleton_self _), hstaged.position_eq.symm, event,
        result.effects, timerId, rfl, hagreed, heffects⟩
      rw [heffects]
      exact (nodup_ordinalEffects hlength).sublist (List.filter_sublist.map _)
  | signed hproposal hsigned ht =>
    subst ht
    refine h.rest rfl hexecution rfl fun p hp => ?_
    cases hp
    exact ⟨_, hproposal, hsigned⟩
  | @certified proposal signed certificate hproposal hsigned hcertifies =>
    obtain ⟨-, -, -, hnone, hposition⟩ := hcertifies.installs
    obtain ⟨hbefore, hfresh, hordinals, -⟩ := h.staged proposal hproposal
    have harmings : (⟨⟨s, input, t⟩, nowMs, .stepSignature (some (signed.under certificate))⟩ :
        Turn κ).armings = timerArmings κ executionId proposal.eventPosition t.version nowMs
          proposal.effects := by
      rw [hsigned]
      show timerArmings κ t.executionId proposal.eventPosition t.version nowMs proposal.effects = _
      rw [hexecution, h.executionId_eq]
    obtain ⟨hnodup, hle, hids⟩ := h.arm harmings hfresh hordinals
    refine ⟨hexecution.trans h.executionId_eq, hnodup, fun label hlabel => ?_, hids, ?_⟩
    · rw [hposition]
      exact UInt64.lt_of_le_of_lt (hle label hlabel) hbefore
    · simp [hnone]
  | dropped _ _ hfree _ ht =>
    subst ht
    exact h.rest rfl hexecution rfl (by simp [hfree])
  | stopped _ ht =>
    have hnone : t.proposal = none := by
      rw [ht]
      rfl
    have hposition : t.eventPosition = s.eventPosition := by
      rw [ht]
      rfl
    exact h.rest rfl hexecution hposition (by simp [hnone])
  | kept hchange hsame =>
    have hproposal : t.proposal = s.proposal := hsame.proposal
    refine h.rest ?_ hexecution hsame.eventPosition fun p hp => ⟨p, hproposal ▸ hp, rfl⟩
    rcases hchange with rfl | ⟨artifact, rfl⟩ <;> rfl

theorem Move.next_position (hmove : Move db nowMs s input t change)
    (hevent : (⟨⟨s, input, t⟩, nowMs, change⟩ : Turn κ).event.isSome = true) :
    checkedAdd s.eventPosition 1 = some t.eventPosition := by
  cases hmove with
  | installed _ _ _ _ _ _ _ _ _ hposition => exact hposition
  | staged _ _ _ _ _ _ hposition ht =>
    rw [ht]
    exact hposition
  | kept hchange => rcases hchange with rfl | ⟨artifact, rfl⟩ <;> cases hevent
  | _ => cases hevent

theorem Move.fires (hmove : Move db nowMs s input t change) (turn : Turn κ)
    (hturn : turn = ⟨⟨s, input, t⟩, nowMs, change⟩) :
    turn.fired = none ∧ (∀ timer, turn.event ≠ some (.timerFired timer)) ∨
      ∃ row ∈ db.dueTimers nowMs, ∃ timer, turn.fired = some row.timerId ∧
        TimerPayload.codec.fromSlice row.payload = some timer ∧
        turn.event = some (.timerFired timer) := by
  subst hturn
  have hdispatch : ∀ {event result pendingId timerId},
      CommittedDispatch db nowMs s input event result pendingId timerId t →
      timerId = none ∧ (∀ timer, some event ≠ some (.timerFired timer)) ∨
        ∃ row ∈ db.dueTimers nowMs, ∃ timer, timerId = some row.timerId ∧
          TimerPayload.codec.fromSlice row.payload = some timer ∧
          some event = some (.timerFired timer) := by
    intro event result pendingId timerId hdispatched
    cases hdispatched.source with
    | @timer row timer _ hdue hpayload => exact .inr ⟨row, hdue, timer, rfl, hpayload, rfl⟩
    | _ => exact .inl ⟨rfl, nofun⟩
  cases hmove with
  | installed hdispatched => exact hdispatch hdispatched
  | staged hdispatched => exact hdispatch hdispatched
  | kept hchange => rcases hchange with rfl | ⟨artifact, rfl⟩ <;> exact .inl ⟨rfl, nofun⟩
  | _ => exact .inl ⟨rfl, nofun⟩

end

/-- The rows are the armed timers that have not fired. -/
structure TimersTracked (turns : List (Turn κ)) (db : Db κ) : Prop where
  rows : db.timers = (turns.flatMap Turn.armed).filter fun row =>
    row.timerId ∉ turns.filterMap Turn.fired
  bounded : db.timers.length ≤ maxActiveTimers
  firedOnce : (turns.filterMap Turn.fired).Nodup
  firedArmed : ∀ id ∈ turns.filterMap Turn.fired, ∃ row ∈ turns.flatMap Turn.armed,
    row.timerId = id
  deadlines : ∀ turn ∈ turns, ∀ row ∈ turn.armed, turn.nowMs ≤ row.deadlineMs

section

variable {keys : HostKeys} {turns : List (Turn κ)} {db db' : Db κ} (h : TimersTracked turns db)
  (htakes : Host.Takes keys db turn db')
  (hnodup : (((turns ++ [turn]).flatMap Turn.armed).map TimerRow.timerId).Nodup)

include h htakes hnodup

theorem TimersTracked.persisted :
    (∀ arming ∈ turn.armings, turn.nowMs ≤ arming.2.deadlineMs) ∧
      db'.timers.length ≤ maxActiveTimers ∧
      db'.timers = (db.timers ++ turn.armed).filter fun row => turn.fired ≠ some row.timerId := by
  rw [List.flatMap_append, List.flatMap_singleton] at hnodup
  have hsub : db.timers.Sublist (turns.flatMap Turn.armed) := by
    rw [h.rows]
    exact List.filter_sublist
  exact Db.persistInTransaction_timers htakes.persisted
    (fun hevent => htakes.move.next_position hevent) h.bounded
    (hnodup.sublist ((hsub.append_right _).map _))

private theorem TimersTracked.step : TimersTracked (turns ++ [turn]) db' := by
  have hfires := htakes.move.fires turn rfl
  obtain ⟨hdeadlines, hbounded, hrows⟩ := h.persisted htakes hnodup
  rw [List.flatMap_append, List.flatMap_singleton] at hnodup
  -- the new identities have not fired before
  have hnew : ∀ row ∈ turn.armed, row.timerId ∉ turns.filterMap Turn.fired := by
    intro row hrow hfired
    obtain ⟨old, hold, hid⟩ := h.firedArmed _ hfired
    rw [List.map_append, List.nodup_append] at hnodup
    exact hnodup.2.2 _ (List.mem_map_of_mem hold) _ (List.mem_map_of_mem hrow) hid
  -- a fired timer has a row, so it has not fired before
  have hfired : ∀ id, turn.fired = some id → id ∉ turns.filterMap Turn.fired ∧
      ∃ row ∈ turns.flatMap Turn.armed, row.timerId = id := by
    intro id hid
    rcases hfires with ⟨hnone, -⟩ | ⟨row, hdue, timer, hsome, -⟩
    · rw [hnone] at hid
      cases hid
    · obtain rfl := Option.some.inj (hsome.symm.trans hid)
      have hrow : row ∈ db.timers := (List.mem_filter.1 hdue).1
      rw [h.rows] at hrow
      obtain ⟨harmed, hunfired⟩ := List.mem_filter.1 hrow
      exact ⟨by simpa using hunfired, row, harmed, rfl⟩
  have hmore : (turns ++ [turn]).filterMap Turn.fired =
      turns.filterMap Turn.fired ++ turn.fired.toList := by
    rw [List.filterMap_append]
    cases hturn : turn.fired <;> simp [hturn]
  have hmem : ∀ id, id ∈ turn.fired.toList ↔ turn.fired = some id := fun id => Option.mem_toList
  refine ⟨?_, hbounded, ?_, ?_, ?_⟩
  · rw [hrows, h.rows, hmore, List.flatMap_append, List.flatMap_singleton, List.filter_append,
      List.filter_append, List.filter_filter]
    congr 1
    · refine List.filter_congr fun row _ => ?_
      simp only [List.mem_append, hmem, not_or, Bool.decide_and, Bool.and_comm, ne_eq]
    · refine List.filter_congr fun row hrow => ?_
      simp only [List.mem_append, hmem, not_or, hnew row hrow, not_false_eq_true, true_and, ne_eq]
  · rw [hmore, List.nodup_append]
    refine ⟨h.firedOnce, ?_, fun a ha b hb heq => ?_⟩
    · cases turn.fired <;> simp
    · exact (hfired b ((hmem b).1 hb)).1 (heq ▸ ha)
  · rw [hmore, List.flatMap_append, List.flatMap_singleton, List.forall_mem_append]
    refine ⟨fun id hid => ?_, fun id hid => ?_⟩
    · obtain ⟨row, hrow, heq⟩ := h.firedArmed id hid
      exact ⟨row, List.mem_append_left _ hrow, heq⟩
    · obtain ⟨row, hrow, heq⟩ := (hfired id ((hmem id).1 hid)).2
      exact ⟨row, List.mem_append_left _ hrow, heq⟩
  · rw [List.forall_mem_append, List.forall_mem_singleton]
    refine ⟨h.deadlines, fun row hrow => ?_⟩
    obtain ⟨arming, harming, rfl⟩ := List.mem_map.1 hrow
    exact hdeadlines arming harming

end

/-- The identities of the timers of a run, as a function of their labels. -/
def timerIdOfLabel (κ : Primitives) (executionId : ExecId) (label : UInt64 × UInt32) : TimerId :=
  Db.timerIdOf κ executionId label.1 label.2

def timerLabels (turns : List (Turn κ)) : Set (UInt64 × UInt32) :=
  {label | label ∈ turns.flatMap Turn.timerLabels}

theorem timerLabels_append (first second : List (Turn κ)) :
    timerLabels first ⊆ timerLabels (first ++ second) := by
  intro label hlabel
  show label ∈ (first ++ second).flatMap Turn.timerLabels
  rw [List.flatMap_append]
  exact List.mem_append_left _ hlabel

theorem LabelsTracked.nodup_ids {executionId : ExecId} {turns : List (Turn κ)}
    {s : ExecutionState κ} (h : LabelsTracked executionId turns s)
    (hfree : Set.InjOn (timerIdOfLabel κ executionId) (timerLabels turns)) :
    ((turns.flatMap Turn.armed).map TimerRow.timerId).Nodup := by
  have hids : (turns.flatMap Turn.armed).map TimerRow.timerId =
      (turns.flatMap Turn.timerLabels).map (timerIdOfLabel κ executionId) := by
    rw [List.map_flatMap, List.map_flatMap]
    refine List.flatMap_congr fun turn hturn => ?_
    rw [Turn.armed, Turn.timerLabels, List.map_map, List.map_map]
    exact List.map_congr_left fun arming harming => h.ids turn hturn arming harming
  rw [hids]
  exact h.nodup.map_on fun a ha b hb heq => hfree ha hb heq

/-- Timers fire at most once and never early along a run. -/
structure TimersOnce (keys : HostKeys) (start : Host κ) (inputs : List (UInt64 × Input)) :
    Prop where
  /-- Every timer ever armed has an identity of its own. -/
  armedOnce : (((start.turns keys inputs).flatMap Turn.armed).map TimerRow.timerId).Nodup
  /-- No deadline wraps around. -/
  deadlines : ∀ turn ∈ start.turns keys inputs, ∀ row ∈ turn.armed, turn.nowMs ≤ row.deadlineMs
  /-- The timers of a certified step are those of the dispatch that staged it. -/
  certified : ∀ turn ∈ start.turns keys inputs, ∀ proposal,
    turn.change = .stepSignature (some proposal) →
      ∃ staging ∈ start.turns keys inputs, staging.Stages proposal
  firedOnce : ((start.turns keys inputs).filterMap Turn.fired).Nodup
  /-- A timer event was armed before, and is taken at or after its deadline. -/
  due : ∀ before turn later, start.turns keys inputs = before ++ turn :: later →
    ∀ timer, turn.event = some (.timerFired timer) → ∃ row ∈ before.flatMap Turn.armed,
      turn.fired = some row.timerId ∧ row.deadlineMs ≤ turn.nowMs ∧
        TimerPayload.codec.fromSlice row.payload = some timer
  firedEvent : ∀ turn ∈ start.turns keys inputs, turn.fired ≠ none →
    ∃ timer, turn.event = some (.timerFired timer)
  rows : (start.run keys inputs).db.timers =
    ((start.turns keys inputs).flatMap Turn.armed).filter fun row =>
      row.timerId ∉ (start.turns keys inputs).filterMap Turn.fired
  bounded : (start.run keys inputs).db.timers.length ≤ maxActiveTimers
  /-- What does not commit arms and removes nothing; a committed transaction adds the rows of its
  timers, removes the row it fires and records its event. -/
  transaction : ∀ done nowMs input later, inputs = done ++ (nowMs, input) :: later →
    ((start.run keys done).turn keys nowMs input = none ∧
      ((start.run keys done).handle keys nowMs input).1.db = (start.run keys done).db) ∨
    ∃ turn, (start.run keys done).turn keys nowMs input = some turn ∧
      ((start.run keys done).handle keys nowMs input).1.db.timers =
        ((start.run keys done).db.timers ++ turn.armed).filter
          (fun row => turn.fired ≠ some row.timerId) ∧
      ∀ event effects timerId, turn.change = .dispatch event effects timerId →
        ((start.run keys done).handle keys nowMs input).1.db.events =
          (start.run keys done).db.events ++
            [Db.eventRow κ turn.before.eventPosition event effects]

namespace Host

/-- The timers are tracked around every turn. -/
theorem Created.timers_tracked {keys : HostKeys} {db : Db κ} (hcreated : Created keys db)
    (inputs : List (UInt64 × Input))
    (hfree : Set.InjOn (timerIdOfLabel κ db.state.executionId)
      (timerLabels ((initial db).turns keys inputs))) :
    LabelsTracked db.state.executionId ((initial db).turns keys inputs)
        ((initial db).run keys inputs).db.state ∧
      TimersTracked ((initial db).turns keys inputs) ((initial db).run keys inputs).db ∧
      ∀ before turn later, (initial db).turns keys inputs = before ++ turn :: later →
        ∃ rows rows', Takes keys rows turn rows' ∧ TimersTracked before rows ∧
          LabelsTracked db.state.executionId before rows.state := by
  obtain ⟨hnone, -, -, -, -, -, htimers, -⟩ := hcreated.fresh
  have hlabels : LabelsTracked db.state.executionId [] db.state :=
    ⟨rfl, List.nodup_nil, by simp, by simp, by simp [hnone]⟩
  have hrows : TimersTracked [] db :=
    ⟨by simpa using htimers, by simp [htimers], List.nodup_nil, by simp, by simp⟩
  obtain ⟨⟨hend, hrowsEnd⟩, hsplit⟩ := Sound.turns_split
    (I := fun rows turns => LabelsTracked db.state.executionId turns rows.state ∧
      (Set.InjOn (timerIdOfLabel κ db.state.executionId) (timerLabels turns) →
        TimersTracked turns rows))
    (fun rows turns turn rows' ⟨hlabels, hrows⟩ htakes => by
      have hlabels' : LabelsTracked db.state.executionId (turns ++ [turn]) rows'.state := by
        rw [htakes.state]
        rw [← htakes.before] at hlabels
        exact hlabels.step htakes.move htakes.executionId
      refine ⟨hlabels', fun hfree => ?_⟩
      exact (hrows (hfree.mono (timerLabels_append _ _))).step htakes (hlabels'.nodup_ids hfree))
    hcreated.sound ⟨hlabels, fun _ => hrows⟩ inputs
  refine ⟨hend, hrowsEnd hfree, fun before turn later heq => ?_⟩
  obtain ⟨rows, rows', htakes, ⟨hbefore, hrowsBefore⟩, -⟩ := hsplit before turn later heq
  refine ⟨rows, rows', htakes, hrowsBefore (hfree.mono ?_), hbefore⟩
  rw [heq]
  exact timerLabels_append _ _

theorem Takes.timers {keys : HostKeys} {db db' : Db κ} {turns : List (Turn κ)}
    {executionId : ExecId} (htakes : Takes keys db turn db')
    (hlabels : LabelsTracked executionId turns db.state) (hrows : TimersTracked turns db)
    (hfree : Set.InjOn (timerIdOfLabel κ executionId) (timerLabels (turns ++ [turn]))) :
    db'.timers = (db.timers ++ turn.armed).filter (fun row => turn.fired ≠ some row.timerId) ∧
      ∀ event effects timerId, turn.change = .dispatch event effects timerId →
        db'.events = db.events ++ [Db.eventRow κ turn.before.eventPosition event effects] := by
  have hlabels' : LabelsTracked executionId (turns ++ [turn]) turn.next := by
    rw [← htakes.before] at hlabels
    exact hlabels.step htakes.move htakes.executionId
  refine ⟨(hrows.persisted htakes (hlabels'.nodup_ids hfree)).2.2,
    fun event effects timerId hchange => ?_⟩
  have hwrote := (Db.persistInTransaction_wrote htakes.persisted).2
  have hevent : turn.event.isSome = true := by
    rw [Turn.event, hchange]
    rfl
  rw [hchange] at hwrote
  cases hwrote with
  | aggregate hstate => rcases hstate with hstate | hstate <;> cases hstate
  | dispatch timers _ _ => rw [sub_one_of_checkedAdd (htakes.move.next_position hevent)]

end Host

/-- Every timer of a run fires at most once and never early, as long as the identity hash does not
collide on the labels of its timers. -/
theorem timers_fire_once_never_early {keys : HostKeys} {db : Db κ}
    (hcreated : Host.Created keys db) (inputs : List (UInt64 × Input))
    (hfree : Set.InjOn (timerIdOfLabel κ db.state.executionId)
      (timerLabels ((Host.initial db).turns keys inputs))) :
    TimersOnce keys (Host.initial db) inputs := by
  obtain ⟨hlabels, hrows, hsplit⟩ := hcreated.timers_tracked inputs hfree
  have haround : ∀ turn ∈ (Host.initial db).turns keys inputs, ∃ before later rows rows',
      (Host.initial db).turns keys inputs = before ++ turn :: later ∧
      Host.Takes keys rows turn rows' ∧ LabelsTracked db.state.executionId before rows.state := by
    intro turn hturn
    obtain ⟨before, later, heq⟩ := List.append_of_mem hturn
    obtain ⟨rows, rows', htakes, -, hbefore⟩ := hsplit before turn later heq
    exact ⟨before, later, rows, rows', heq, htakes, hbefore⟩
  refine ⟨hlabels.nodup_ids hfree, hrows.deadlines, ?_, hrows.firedOnce, ?_, ?_, hrows.rows,
    hrows.bounded, ?_⟩
  · intro turn hturn proposal hchange
    obtain ⟨before, later, rows, rows', heq, htakes, hbefore⟩ := haround turn hturn
    have hmove := htakes.move
    rw [hchange] at hmove
    cases hmove with
    | @certified staged signed certificate hproposal hsigned hcertifies =>
      rw [htakes.before] at hproposal
      obtain ⟨-, -, -, staging, hstaging, hstages⟩ := hbefore.staged staged hproposal
      refine ⟨staging, heq ▸ List.mem_append_left _ hstaging, ?_⟩
      rw [hsigned]
      exact hstages
    | kept hkept => rcases hkept with hkept | ⟨artifact, hkept⟩ <;> cases hkept
  · intro before turn later heq timer hevent
    obtain ⟨rows, rows', htakes, hbefore, -⟩ := hsplit before turn later heq
    rcases htakes.move.fires turn rfl with ⟨-, hnot⟩ | ⟨row, hdue, timer', hfired, hpayload, hevent'⟩
    · exact absurd hevent (hnot timer)
    · obtain ⟨hrow, hdeadline⟩ := List.mem_filter.1 hdue
      rw [hbefore.rows] at hrow
      rw [hevent] at hevent'
      cases hevent'
      exact ⟨row, (List.mem_filter.1 hrow).1, hfired, by simpa using hdeadline, hpayload⟩
  · intro turn hturn hfired
    obtain ⟨before, later, rows, rows', heq, htakes, -⟩ := haround turn hturn
    rcases htakes.move.fires turn rfl with ⟨hnone, -⟩ | ⟨row, -, timer, -, -, hevent⟩
    · exact absurd hnone hfired
    · exact ⟨timer, hevent⟩
  · intro done nowMs input later hinputs
    have hturns : (Host.initial db).turns keys inputs = (Host.initial db).turns keys done ++
        (((Host.initial db).run keys done).turn keys nowMs input).toList ++
        (((Host.initial db).run keys done).handle keys nowMs input).1.turns keys later := by
      rw [hinputs, Host.turns_append, Host.turns, List.append_assoc]
    rcases (hcreated.sound.run done).takes_or_idle nowMs input with hidle | ⟨turn, hturn, htakes⟩
    · exact .inl hidle
    · rw [hturn] at hturns
      have hfree' : Set.InjOn (timerIdOfLabel κ db.state.executionId)
          (timerLabels ((Host.initial db).turns keys done ++ [turn])) := by
        refine hfree.mono ?_
        rw [hturns]
        exact timerLabels_append _ _
      obtain ⟨hlabels', hrows', -⟩ :=
        hcreated.timers_tracked done (hfree'.mono (timerLabels_append _ _))
      exact .inr ⟨turn, hturn, htakes.timers hlabels' hrows' hfree'⟩

namespace Sample

/-- The timer of the session start: the second effect of the event at position 0. -/
def startTimer : TimerId := Db.timerIdOf referencePrimitives executionId 0 1

/-- The certified session start arms a timer; it is not due at first, and fires once. -/
def timed : List (UInt64 × Input) :=
  [(0, .activate), (0, .start (accepted [.broadcast [3], .setTimer 5 ⟨"tick", [1]⟩])), (0, .sign),
    (1, .receive (peer 2) (.stepSignature startCommitment (referenceBytes 48 1138100667352102205))
      (accepted [])),
    (5, .timer startTimer (accepted [])), (7, .timer startTimer (accepted [])),
    (9, .timer startTimer (accepted []))]

end Sample

open Sample in
theorem timers_fire_once_never_early_timed :
    ((Host.initial (db 1)).turns (keys 1) timed).map
        (fun turn => (turn.nowMs, turn.timerLabels, turn.fired)) =
      [(0, [], none), (0, [], none), (0, [], none), (1, [(0, 1)], none),
        (7, [], some startTimer)] ∧
    TimersOnce (keys 1) (Host.initial (db 1)) timed := by
  refine ⟨by decide +kernel, timers_fire_once_never_early created_one timed ?_⟩
  have hlabels : ((Host.initial (db 1)).turns (keys 1) timed).flatMap
      Turn.timerLabels = [(0, 1)] := by decide +kernel
  intro a ha b hb _
  simp only [timerLabels, hlabels, List.mem_singleton, Set.mem_ofPred_eq] at ha hb
  rw [ha, hb]

end Arena0
