import Arena0.Actor

/-!
# Replaying an agreed trace

Only agreed steps change shared state, so the agreed events dispatched to a
fresh instance of the program reproduce it.  Full verification replays the whole
trace of a receipt and compares its ending and outcome with the program.
-/

namespace Arena0

open Borsh Fallible

variable {κ : Primitives} {ε : Type} {localPeer : PeerId}

/-! ## Programs -/

structure DispatchCall where
  localPeer : PeerId
  ensemble : Ensemble
  event : Event
  outgoingLen : ℕ

/-- What an instance returns for one call; an accepted call carries its state images. -/
inductive DispatchCallResult where
  | trapped (message : String)
  | rejected (reason : Option String)
  | accepted (shared : Option SharedStateBytes) (localState : Option LocalStateBytes)
      (effects : List Effect) (callout : Option CalloutRequest)

/-- A program loaded under an execution profile.  Its exports are functions of the committed state
images, the call and whatever else the host offers in the call (an `ε`). -/
structure LoadedProgram (ε : Type) where
  hash : ProgramHash
  profile : ExecutionProfileHash
  init : Bytes → Except String (SharedStateBytes × LocalStateBytes)
  dispatch : ε → SharedStateBytes → LocalStateBytes → DispatchCall → DispatchCallResult
  outcome : SharedStateBytes → Ensemble → Except String (Bytes × Bytes)

/-- The shared images and the lifecycle effect of an accepted call. -/
def DispatchCallResult.sharedResult :
    DispatchCallResult → Option (Option SharedStateBytes × Option Effect)
  | .accepted shared _ effects _ => some (shared, effects.find? Effect.isLifecycle)
  | _ => none

/-- The shared result of an agreed event is a function of the shared payload, the event and the
ensemble: no other part of the call, no local state and nothing the host offers changes it. -/
def LoadedProgram.SharedDeterministic (program : LoadedProgram ε) : Prop :=
  ∀ env env' shared localState localState' (call call' : DispatchCall),
    call.event.isAgreed = true → call.event = call'.event → call.ensemble = call'.ensemble →
    (program.dispatch env shared localState call).sharedResult =
      (program.dispatch env' shared localState' call').sharedResult

/-! ## Replay -/

def StepEvent.dispatchEvent : StepEvent → Event
  | .sessionStarted ensemble => .sessionStarted ensemble
  | .message source data => .messageReceived source data

inductive ReplayError where
  | initialization (source : String)
  | initialState (expected actual : StateHash)
  | diverged (step : UInt64) (expected actual : StateHash)
  | guest (step : UInt64) (source : String)
  | rejected (step : UInt64) (status : String)
  | terminal (step : UInt64) (expected actual : Option StepTerminal)
  | outcomeProjection (source : String)
  | outcome
  | outOfOrder (expected : ℕ) (found : UInt64)
  | panicked (message : String)
  deriving DecidableEq

/-- Dispatch one agreed event and compare the result with its entry. -/
def replayStep (κ : Primitives) (program : LoadedProgram ε) (env : ε) (ensemble : Ensemble)
    (localPeer : PeerId) (shared : SharedStateBytes) (localState : LocalStateBytes)
    (entry : TraceEntry) : Except ReplayError (SharedStateBytes × LocalStateBytes) :=
  match program.dispatch env shared localState
      ⟨localPeer, ensemble, entry.event.dispatchEvent, 0⟩ with
  | .trapped source => .error (.guest entry.step source)
  | .rejected reason => .error (.rejected entry.step
      (match reason with
        | some reason => s!"rejected: {reason}"
        | none => "rejected"))
  | .accepted images localImages effects _ => do
    -- a dispatch that returns no images left the state as it was
    let next := images.getD shared
    let actual := StateHash.ofShared κ next
    ensure (actual = entry.postState) (.diverged entry.step entry.postState actual)
    let actual := effects.findSome? StepTerminal.fromEffect
    ensure (actual = entry.terminal) (.terminal entry.step entry.terminal actual)
    return (next, localImages.getD localState)

/-- The steps in order, each from the images the one before it committed. -/
def replaySteps (κ : Primitives) (program : LoadedProgram ε) (env : ℕ → ε) (ensemble : Ensemble)
    (localPeer : PeerId) :
    ℕ → SharedStateBytes → LocalStateBytes → List TraceEntry → Except ReplayError SharedStateBytes
  | _, shared, _, [] => .ok shared
  | expected, shared, localState, entry :: steps => do
    ensure (entry.step.toNat = expected) (.outOfOrder expected entry.step)
    let (shared, localState) ←
      replayStep κ program (env expected) ensemble localPeer shared localState entry
    replaySteps κ program env ensemble localPeer (expected + 1) shared localState steps

/-- Reproduce the shared state after the last entry of `steps`. -/
def replayShared (program : LoadedProgram ε) (env : ℕ → ε) (binding : ExecutionBinding κ)
    (localPeer : PeerId) (steps : List TraceEntry) : Except ReplayError SharedStateBytes := do
  let offer := binding.activation.offer.data
  let ensemble ← binding.ensemble.mapError fun _ =>
    ReplayError.panicked "validated activation has a committed ensemble"
  let (shared, localState) ← (program.init offer.params.bytes).mapError .initialization
  let actual := StateHash.ofShared κ shared
  ensure (actual = offer.initialState) (.initialState offer.initialState actual)
  replaySteps κ program env ensemble localPeer 0 shared localState steps

/-- Fully verify an authenticated receipt; a completion returns the JSON projection of its
outcome. -/
def verifyFull (program : LoadedProgram ε) (env : ℕ → ε) (artifact : ReceiptArtifact κ) :
    Except ReplayError (Option Bytes) := do
  let body := artifact.body
  let binding : ExecutionBinding κ := ⟨body.header.activation⟩
  ensure (program.hash = binding.programHash)
    (.panicked "verify_full needs the activation's program")
  ensure (program.profile = binding.activation.offer.data.executionProfile)
    (.panicked "verify_full needs the activation's execution profile")
  let ensemble ← binding.ensemble.mapError fun _ =>
    ReplayError.panicked "validated activation has a committed ensemble"
  let localPeer ← okOr ensemble.peers.head? (.panicked "index out of bounds")
  let shared ← replayShared program env binding localPeer body.trace
  match body.header.terminal with
  | .completed => do
    let (borsh, json) ← (program.outcome shared ensemble).mapError .outcomeProjection
    ensure (borsh = body.outcome) .outcome
    return some json
  | .stopped _ => return none

/-! ## What a replay establishes -/

/-- An agreed event takes a shared payload to the next one with this terminal value, whatever the
rest of the call. -/
def LoadedProgram.Produces (program : LoadedProgram ε) (ensemble : Ensemble)
    (shared : SharedStateBytes) (event : StepEvent) (next : SharedStateBytes)
    (terminal : Option StepTerminal) : Prop :=
  ∀ env localState localPeer outgoingLen, ∃ images localImages effects callout,
    program.dispatch env shared localState
        ⟨localPeer, ensemble, event.dispatchEvent, outgoingLen⟩ =
      .accepted images localImages effects callout ∧
    images.getD shared = next ∧ effects.findSome? StepTerminal.fromEffect = terminal

/-- The program reproduces every post-state and terminal value of the steps. -/
inductive LoadedProgram.Reproduces (κ : Primitives) (program : LoadedProgram ε)
    (ensemble : Ensemble) : SharedStateBytes → List TraceEntry → SharedStateBytes → Prop
  | nil (shared : SharedStateBytes) : Reproduces κ program ensemble shared [] shared
  | cons {shared next final : SharedStateBytes} {entry : TraceEntry} {steps : List TraceEntry}
      (hproduces : program.Produces ensemble shared entry.event next entry.terminal)
      (hpost : entry.postState = StateHash.ofShared κ next)
      (hrest : Reproduces κ program ensemble next steps final) :
      Reproduces κ program ensemble shared (entry :: steps) final

section

variable {program : LoadedProgram ε} {ensemble : Ensemble}

theorem StepEvent.isAgreed_dispatchEvent (event : StepEvent) :
    event.dispatchEvent.isAgreed = true := by
  cases event <;> rfl

theorem StepTerminal.fromEffect_isSome (effect : Effect) :
    (fromEffect effect).isSome = effect.isLifecycle := by
  cases effect <;> rfl

theorem findSome?_fromEffect (effects : List Effect) :
    effects.findSome? StepTerminal.fromEffect =
      (effects.find? Effect.isLifecycle).bind StepTerminal.fromEffect := by
  induction effects with
  | nil => rfl
  | cons effect effects ih =>
    have hsome := StepTerminal.fromEffect_isSome effect
    rw [List.findSome?_cons, List.find?_cons]
    cases hterminal : StepTerminal.fromEffect effect with
    | none =>
      rw [hterminal] at hsome
      simp [← hsome, ih]
    | some terminal =>
      rw [hterminal] at hsome
      simp [← hsome, hterminal]

theorem LoadedProgram.SharedDeterministic.produces (hdet : program.SharedDeterministic) {env : ε}
    {shared : SharedStateBytes} {localState : LocalStateBytes}
    {outgoingLen : ℕ} {event : StepEvent} {images : Option SharedStateBytes}
    {localImages : Option LocalStateBytes} {effects : List Effect}
    {callout : Option CalloutRequest}
    (h : program.dispatch env shared localState
        ⟨localPeer, ensemble, event.dispatchEvent, outgoingLen⟩ =
      .accepted images localImages effects callout) :
    program.Produces ensemble shared event (images.getD shared)
      (effects.findSome? StepTerminal.fromEffect) := by
  intro env' localState' localPeer' outgoingLen'
  have hsame := hdet env env' shared localState localState'
    ⟨localPeer, ensemble, event.dispatchEvent, outgoingLen⟩
    ⟨localPeer', ensemble, event.dispatchEvent, outgoingLen'⟩ event.isAgreed_dispatchEvent rfl rfl
  rw [h] at hsame
  cases hresult : program.dispatch env' shared localState'
      ⟨localPeer', ensemble, event.dispatchEvent, outgoingLen'⟩ with
  | accepted images' localImages' effects' callout' =>
    rw [hresult] at hsame
    obtain ⟨himages, heffects⟩ := Prod.mk.inj (Option.some.inj hsame)
    refine ⟨images', localImages', effects', callout', rfl, by rw [himages], ?_⟩
    rw [findSome?_fromEffect, findSome?_fromEffect, heffects]
  | trapped _ | rejected _ =>
    rw [hresult] at hsame
    cases hsame

theorem replayStep_eq_ok {env : ε} {shared next : SharedStateBytes}
    {localState nextLocal : LocalStateBytes} {entry : TraceEntry} :
    replayStep κ program env ensemble localPeer shared localState entry = .ok (next, nextLocal) ↔
      ∃ images localImages effects callout,
        program.dispatch env shared localState
            ⟨localPeer, ensemble, entry.event.dispatchEvent, 0⟩ =
          .accepted images localImages effects callout ∧
        images.getD shared = next ∧ localImages.getD localState = nextLocal ∧
        entry.postState = StateHash.ofShared κ next ∧
        effects.findSome? StepTerminal.fromEffect = entry.terminal := by
  unfold replayStep
  cases program.dispatch env shared localState
      ⟨localPeer, ensemble, entry.event.dispatchEvent, 0⟩ with
  | trapped _ | rejected _ => simp
  | accepted images localImages effects callout =>
    simp only [bind_eq_ok, ensure_eq_ok, pure_eq_ok, Prod.mk.injEq]
    constructor
    · rintro ⟨_, hpost, _, hterminal, rfl, rfl⟩
      exact ⟨images, localImages, effects, callout, rfl, rfl, rfl, hpost.symm, hterminal⟩
    · rintro ⟨_, _, _, _, heq, rfl, rfl, hpost, hterminal⟩
      obtain ⟨rfl, rfl, rfl, rfl⟩ := DispatchCallResult.accepted.inj heq
      exact ⟨(), hpost.symm, (), hterminal, rfl, rfl⟩

/-- A replay accepts exactly the numbered steps the program reproduces. -/
theorem LoadedProgram.SharedDeterministic.replaySteps_eq_ok (hdet : program.SharedDeterministic)
    {env : ℕ → ε} {expected : ℕ} {shared final : SharedStateBytes}
    {localState : LocalStateBytes} {steps : List TraceEntry} :
    replaySteps κ program env ensemble localPeer expected shared localState steps = .ok final ↔
      steps.map (·.step.toNat) = List.range' expected steps.length ∧
        program.Reproduces κ ensemble shared steps final := by
  induction steps generalizing expected shared localState with
  | nil =>
    constructor
    · intro h
      obtain rfl := Except.ok.inj h
      exact ⟨rfl, .nil shared⟩
    · rintro ⟨-, h⟩
      cases h
      rfl
  | cons entry steps ih =>
    simp only [replaySteps, bind_eq_ok, ensure_eq_ok, Prod.exists, ih, List.map_cons,
      List.length_cons, List.range'_succ, List.cons.injEq]
    constructor
    · rintro ⟨_, hstep, next, nextLocal, hreplay, hsteps, hrest⟩
      obtain ⟨images, localImages, effects, callout, hcall, rfl, -, hpost, hterminal⟩ :=
        replayStep_eq_ok.1 hreplay
      refine ⟨⟨hstep, hsteps⟩, .cons ?_ hpost hrest⟩
      rw [← hterminal]
      exact hdet.produces hcall
    · rintro ⟨⟨hstep, hsteps⟩, h⟩
      cases h with
      | @cons _ next _ _ _ hproduces hpost hrest =>
        obtain ⟨images, localImages, effects, callout, hcall, hnext, hterminal⟩ :=
          hproduces (env expected) localState localPeer 0
        exact ⟨(), hstep, next, _, replayStep_eq_ok.2 ⟨images, localImages, effects, callout, hcall,
          hnext, rfl, hpost, hterminal⟩, hsteps, hrest⟩

theorem LoadedProgram.SharedDeterministic.replayShared_eq_ok (hdet : program.SharedDeterministic)
    {env : ℕ → ε} {binding : ExecutionBinding κ} {final : SharedStateBytes}
    {steps : List TraceEntry} :
    replayShared program env binding localPeer steps = .ok final ↔
      ∃ ensemble shared localState, binding.ensemble = .ok ensemble ∧
        program.init binding.activation.offer.data.params.bytes = .ok (shared, localState) ∧
        StateHash.ofShared κ shared = binding.activation.offer.data.initialState ∧
        steps.map (·.step.toNat) = List.range' 0 steps.length ∧
        program.Reproduces κ ensemble shared steps final := by
  simp only [replayShared, bind_eq_ok, mapError_eq_ok, ensure_eq_ok, Prod.exists,
    hdet.replaySteps_eq_ok]
  constructor
  · rintro ⟨ensemble, hensemble, shared, localState, hinit, _, hhash, hsteps, hrest⟩
    exact ⟨ensemble, shared, localState, hensemble, hinit, hhash, hsteps, hrest⟩
  · rintro ⟨ensemble, shared, localState, hensemble, hinit, hhash, hsteps, hrest⟩
    exact ⟨ensemble, hensemble, shared, localState, hinit, (), hhash, hsteps, hrest⟩

theorem LoadedProgram.Reproduces.append {shared next final : SharedStateBytes}
    {steps more : List TraceEntry} (h : program.Reproduces κ ensemble shared steps next)
    (h' : program.Reproduces κ ensemble next more final) :
    program.Reproduces κ ensemble shared (steps ++ more) final := by
  induction h with
  | nil => exact h'
  | cons hproduces hpost _ ih => exact .cons hproduces hpost (ih h')

end

end Arena0
