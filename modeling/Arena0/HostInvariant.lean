import Arena0.Ledger

/-!
# The invariant of a host

A host that starts from a created execution keeps a recoverable aggregate, a
ledger of its certified trace and, while it runs, a live copy equal to the
durable aggregate.  Every input is then either quiet or one committed transition
of the durable aggregate.
-/

namespace Arena0

open Borsh Fallible Actor ExecutionState

variable {κ : Primitives} {P : Host κ → Prop}

namespace Host

structure Sound (keys : HostKeys) (h : Host κ) : Prop where
  live : h.live = none ∨ h.live = some h.db.state
  recoverable : h.db.state.Recoverable
  producer : h.db.state.producer = keys.peerId
  activation : h.db.activation = h.db.state.binding.activation
  version : h.db.state.version.toNat < 2 ^ 63
  ledger : ∃ entries, h.db.Ledger entries

/-- The host after a decision over its durable aggregate was written. -/
def record (h : Host κ) (input : Input) (next : ExecutionState κ) (db : Db κ) : Host κ :=
  ⟨db, some next, ⟨h.db.state, input, next⟩ :: h.journal⟩

/-- One input of a sound host: nothing durable changes, or one decision over the durable
aggregate is written and recorded. -/
inductive Transition (keys : HostKeys) (h : Host κ) (input : Input) : Host κ → Prop
  | quiet (live : Option (ExecutionState κ)) (hlive : live = none ∨ live = some h.db.state) :
      Transition keys h input { h with live := live }
  | commit {next : ExecutionState κ} {change : Change κ} {db : Db κ}
      (hlive : h.live = some h.db.state)
      (hcommitted : Committed keys h.db h.db.state input next change)
      (hversion : next.version.toNat < 2 ^ 63) (hwritten : h.db.Written next change db) :
      Transition keys h input (h.record input next db)

variable {keys : HostKeys} {h : Host κ}

theorem Sound.live_eq {s : ExecutionState κ} (hs : h.Sound keys) (hlive : h.live = some s) :
    h.db.state = s := by
  rcases hs.live with hnone | hsome
  · rw [hnone] at hlive
    cases hlive
  · exact Option.some.inj (hsome.symm.trans hlive)

theorem Sound.transition (hs : h.Sound keys) (nowMs : UInt64) (input : Input) :
    Transition keys h input (h.handle keys nowMs input).1 := by
  generalize hresult : (h.handle keys nowMs input).1 = h'
  have hstep := h.handle_step keys nowMs input
  rw [hresult] at hstep
  cases hstep with
  | quiet live hlive =>
    refine .quiet live ?_
    rcases hlive with hlive | hlive | hlive
    · exact .inl hlive
    · rw [hlive]
      exact hs.live
    · exact .inr hlive
  | @commit s _ _ _ _ hlive hdecide hpersist =>
    obtain rfl := hs.live_eq hlive
    obtain ⟨hversion, hwritten⟩ := Db.persistInTransaction_eq_ok hpersist
    exact .commit hlive (handle_commit hdecide) hversion hwritten

theorem Transition.sound {h' : Host κ} {input : Input} (hs : h.Sound keys)
    (ht : Transition keys h input h') : h'.Sound keys := by
  cases ht with
  | quiet live hlive =>
    exact { hs with live := hlive }
  | commit hlive hcommitted hversion hwritten =>
    obtain ⟨entries, hledger⟩ := hs.ledger
    obtain ⟨entries', hledger', -⟩ := hledger.committed hs.recoverable hcommitted hwritten
    have hsame := hcommitted.sameExecution
    have hrec := hcommitted.recoverable hs.recoverable
    have hproducer := hsame.producer.trans hs.producer
    have hactivation := hs.activation
    rw [← hsame.binding] at hactivation
    cases hwritten with
    | rows events timers receipts production hchange =>
      exact ⟨.inr rfl, hrec, hproducer, hactivation, hversion, entries', hledger'⟩
    | certified timers hevent =>
      exact ⟨.inr rfl, hrec, hproducer, hactivation, hversion, entries', hledger'⟩

theorem Sound.handle (hs : h.Sound keys) (nowMs : UInt64) (input : Input) :
    (h.handle keys nowMs input).1.Sound keys :=
  (hs.transition nowMs input).sound hs

/-- What the transitions of sound hosts preserve holds along every run. -/
theorem Sound.run_transition
    (hstep : ∀ h input h', h.Sound keys → P h → Transition keys h input h' → P h')
    (hs : h.Sound keys) (hp : P h) (inputs : List (UInt64 × Input)) : P (h.run keys inputs) := by
  induction inputs generalizing h with
  | nil => exact hp
  | cons input inputs ih =>
    exact ih (hs.handle input.1 input.2) (hstep _ _ _ hs hp (hs.transition input.1 input.2))

theorem Sound.run (hs : h.Sound keys) (inputs : List (UInt64 × Input)) :
    (h.run keys inputs).Sound keys :=
  hs.run_transition (fun _ _ _ hs _ ht => ht.sound hs) hs inputs

/-- One input of a sound host leaves the durable rows alone or writes one decision of the actor. -/
theorem Sound.decided (hs : h.Sound keys) (nowMs : UInt64) (input : Input) :
    (∃ live, (h.handle keys nowMs input).1 = { h with live := live }) ∨
      ∃ next change answer db,
        Actor.handle keys h.db h.db.state nowMs input = .commit next change answer ∧
        h.db.Written next change db ∧ (h.handle keys nowMs input).1 = h.record input next db := by
  generalize hresult : (h.handle keys nowMs input).1 = h'
  have hstep := h.handle_step keys nowMs input
  rw [hresult] at hstep
  cases hstep with
  | quiet live _ => exact .inl ⟨live, rfl⟩
  | @commit s next change answer db hlive hdecide hpersist =>
    obtain rfl := hs.live_eq hlive
    have hwritten := (Db.persistInTransaction_eq_ok hpersist).2
    exact .inr ⟨next, change, answer, db, hdecide, hwritten, rfl⟩

def Created (keys : HostKeys) (db : Db κ) : Prop :=
  ∃ receipts executionId activation producer sharedState localState nowMs,
    Db.create keys.peerId receipts executionId activation producer sharedState localState nowMs
      = .ok db

def Reachable (keys : HostKeys) (h : Host κ) : Prop :=
  ∃ db inputs, Created keys db ∧ h = (initial db).run keys inputs

theorem Created.fresh {db : Db κ} (h : Created keys db) :
    db.state.proposal = none ∧ db.state.status = .activating ∧ db.state.agreedStep = 0 ∧
      db.state.direct = .empty ∧ db.state.outgoing = [] ∧ db.state.callout = none ∧
      db.timers = [] ∧ db.agreedSteps = [] := by
  obtain ⟨receipts, executionId, activation, producer, sharedState, localState, nowMs, h⟩ := h
  simp only [Db.create, ExecutionState.new, bind_eq_ok, mapError_eq_ok, ensure_eq_ok,
    pure_eq_ok] at h
  obtain ⟨_, ⟨_, -, _, -, _, -, _, -, _, -, rfl⟩, _, -, _, -, _, -, _, -, _, -, _, -, _, -, _, -,
    rfl⟩ := h
  exact ⟨rfl, rfl, rfl, rfl, rfl, rfl, rfl, rfl⟩

theorem Created.sound {db : Db κ} (h : Created keys db) : (initial db).Sound keys := by
  obtain ⟨receipts, executionId, activation, producer, sharedState, localState, nowMs, h⟩ := h
  simp only [Db.create, bind_eq_ok, mapError_eq_ok, ensure_eq_ok, pure_eq_ok] at h
  obtain ⟨state, hnew, _, hproducer, _, hactivation, _, -, _, -, _, hversion, _, -, _, -, _, -,
    rfl⟩ := h
  have hrec := recoverable_new hnew
  simp only [ExecutionState.new, ExecutionBinding.new, bind_eq_ok, mapError_eq_ok, ensure_eq_ok,
    pure_eq_ok] at hnew
  obtain ⟨binding, ⟨_, -, rfl⟩, overhead, -, _, -, _, -, _, hshared, rfl⟩ := hnew
  have hzero : (0 : UInt64).toNat < 2 ^ 63 := by decide
  refine ⟨.inr rfl, hrec, hproducer, hactivation, hzero, [], ?_⟩
  have hnil := CertifiedTrace.nil (b := (⟨activation⟩ : ExecutionBinding κ))
  rw [← hrec.genesis rfl] at hnil
  exact ⟨.nil, hnil, rfl, .running (.inl rfl) (by simp), rfl⟩

section

variable (hlive : ∀ h live, P h → P { h with live := live })
  (hdecision : ∀ (h : Host κ) nowMs input next change answer db, h.Sound keys → P h →
    Actor.handle keys h.db h.db.state nowMs input = .commit next change answer →
    h.db.Written next change db → P (h.record input next db))

include hlive hdecision

/-- What one input of a sound host preserves, over its durable rows and its journal, holds
along every run. -/
theorem Sound.run_induction (hs : h.Sound keys) (hp : P h)
    (inputs : List (UInt64 × Input)) : P (h.run keys inputs) := by
  induction inputs generalizing h with
  | nil => exact hp
  | cons input inputs ih =>
    refine ih (hs.handle input.1 input.2) ?_
    show P (h.handle keys input.1 input.2).1
    rcases hs.decided input.1 input.2 with
      ⟨live, heq⟩ | ⟨next, change, answer, db, hdecide, hwritten, heq⟩
    · rw [heq]
      exact hlive h live hp
    · rw [heq]
      exact hdecision h input.1 input.2 next change answer db hs hp hdecide hwritten

/-- What holds of created executions and is preserved by one input holds of reachable hosts. -/
theorem Reachable.induction (hr : h.Reachable keys)
    (hinitial : ∀ db, Created keys db → P (initial db)) : P h := by
  obtain ⟨db, inputs, hcreated, rfl⟩ := hr
  exact Sound.run_induction hlive hdecision hcreated.sound (hinitial db hcreated) inputs

end

theorem Sound.run_binding (hs : h.Sound keys) (inputs : List (UInt64 × Input)) :
    (h.run keys inputs).db.state.binding = h.db.state.binding := by
  refine run_induction (P := fun h' => h'.db.state.binding = h.db.state.binding) ?_ ?_ hs rfl inputs
  · exact fun h live hp => hp
  · intro h' nowMs input next change answer db _ hp hdecide hwritten
    have hstate : (h'.record input next db).db.state = next := hwritten.state
    rw [hstate, (handle_commit hdecide).sameExecution.binding, hp]

theorem Reachable.sound (hr : h.Reachable keys) : h.Sound keys := by
  obtain ⟨db, inputs, hcreated, rfl⟩ := hr
  exact hcreated.sound.run inputs

end Host

end Arena0
