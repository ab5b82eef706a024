import Arena0.Trace

/-!
# Effects and events of a dispatch

The effects a program requests during one event, the bounds they must satisfy,
and the events the host dispatches.
-/

namespace Arena0

open Borsh Fallible

def ensureEncoded (kind : String) (actual max : ℕ) : Except ProtocolError Unit :=
  ensure (actual ≤ max) (.encodedTooLarge kind actual max)

def ensurePayload (kind : String) (actual max : ℕ) : Except ProtocolError Unit :=
  ensure (actual ≤ max) (.payloadTooLarge kind actual max)

def byteLen (s : String) : ℕ := (Codec.utf8 s).length

structure TimerPayload where
  typeName : String
  data : Bytes
  deriving DecidableEq

def TimerPayload.codec : Codec TimerPayload :=
  (reasonCodec.pair (Codec.byteVec maxTimerPayloadBytes)).equiv
  { toFun := fun (a, b) => ⟨a, b⟩
    invFun := fun t => (t.typeName, t.data) }

structure RangeAttachment where
  hash : BlobHash
  start : UInt64
  stop : UInt64
  deriving DecidableEq

def RangeAttachment.codec : Codec RangeAttachment :=
  (Id.codec.pair <| Codec.u64.pair Codec.u64).equiv
  { toFun := fun (a, b, c) => ⟨a, b, c⟩
    invFun := fun r => (r.hash, r.start, r.stop) }

inductive Effect where
  | sessionEnd (outcome : Bytes)
  | sessionAbort (reason : String)
  | broadcast (data : Bytes)
  | setTimer (delayMs : UInt64) (timer : TimerPayload)
  | fail (reason : String)
  | sendDirect (recipient : PeerId) (msg : Bytes) (range : Option RangeAttachment)
  deriving DecidableEq

inductive Event where
  | sessionStarted (ensemble : Ensemble)
  | messageReceived (source : PeerId) (msg : Bytes)
  | inputReceived (calloutIndex : UInt32) (data : Bytes)
  | timerFired (timer : TimerPayload)
  | directReceived (source : PeerId) (msg : Bytes) (attachment : Option UInt32)
  deriving DecidableEq

namespace Effect

def isLifecycle : Effect → Bool
  | .sessionEnd _ | .sessionAbort _ | .fail _ => true
  | .broadcast _ | .setTimer .. | .sendDirect .. => false

def codec : Codec Effect :=
  (Codec.enum (.cons outcomeBytesCodec (.cons reasonCodec (.cons payloadCodec
    (.cons (Codec.u64.pair TimerPayload.codec) (.cons reasonCodec
    (.last (Id.codec.pair <| controlCodec.pair RangeAttachment.codec.option)))))))).equiv
  { toFun := fun
      | .inl outcome => .sessionEnd outcome
      | .inr (.inl reason) => .sessionAbort reason
      | .inr (.inr (.inl data)) => .broadcast data
      | .inr (.inr (.inr (.inl (delayMs, timer)))) => .setTimer delayMs timer
      | .inr (.inr (.inr (.inr (.inl reason)))) => .fail reason
      | .inr (.inr (.inr (.inr (.inr (recipient, msg, range))))) =>
        .sendDirect recipient msg range
    invFun := fun
      | .sessionEnd outcome => .inl outcome
      | .sessionAbort reason => .inr (.inl reason)
      | .broadcast data => .inr (.inr (.inl data))
      | .setTimer delayMs timer => .inr (.inr (.inr (.inl (delayMs, timer))))
      | .fail reason => .inr (.inr (.inr (.inr (.inl reason))))
      | .sendDirect recipient msg range =>
        .inr (.inr (.inr (.inr (.inr (recipient, msg, range)))))
    left_inv := by rintro (_ | _ | _ | _ | _ | _) <;> rfl
    right_inv := by rintro (_ | _ | _ | _ | _ | _) <;> rfl }

def validatePayload : Effect → Except ProtocolError Unit
  | .sessionEnd outcome =>
    ensurePayload "terminal outcome" outcome.length maxTerminalOutcomeBytes
  | .sessionAbort reason | .fail reason =>
    ensurePayload "terminal reason" (byteLen reason) maxTerminalReasonBytes
  | .broadcast data => ensurePayload "broadcast payload" data.length maxEffectPayloadBytes
  | .setTimer _ timer => do
    ensurePayload "timer type name" (byteLen timer.typeName) maxTerminalReasonBytes
    ensurePayload "timer data" timer.data.length maxTimerPayloadBytes
  | .sendDirect _ msg range => do
    ensurePayload "direct message" msg.length maxDirectControlBytes
    match range with
    | some range =>
      ensure (range.start < range.stop ∧
        range.stop.toNat - range.start.toNat ≤ maxDirectRangeBytes)
        (.invalidCertificate "direct range is empty or over its bound")
    | none => .ok ()

end Effect

def StepTerminal.fromEffect : Effect → Option StepTerminal
  | .sessionEnd outcome => some (.end outcome)
  | .sessionAbort reason => some (.abort reason)
  | .fail reason => some (.fail reason)
  | .broadcast _ | .setTimer .. | .sendDirect .. => none

/-- The dispatch's lifecycle effect, refusing more than one. -/
def singleLifecycleEffect (effects : List Effect) : Except ProtocolError (Option Effect) :=
  match effects.filter Effect.isLifecycle with
  | [] => .ok none
  | [effect] => .ok (some effect)
  | _ => .error .multipleTerminalEffects

/-- The effect loop: count, payload and accumulated encoding length. -/
def effectBudgetLoop (count total : ℕ) : List Effect → Except ProtocolError ℕ
  | [] => .ok total
  | effect :: effects => do
    ensure (count + 1 ≤ maxEffects) (.collectionTooLarge "effects" (count + 1) maxEffects)
    effect.validatePayload
    let encoded ← okOr (Effect.codec.toVec effect) (.serialization "length exceeds bound")
    effectBudgetLoop (count + 1) (total + encoded.length) effects

def checkEffectBudget (effects : List Effect) : Except ProtocolError Unit := do
  let total ← effectBudgetLoop 0 4 effects
  ensureEncoded "effects" total maxEffectBytes

def encodedLength (effects : List Effect) : ℕ :=
  (effects.map fun effect => (Effect.codec.encode effect).length).sum

theorem effectBudgetLoop_eq_ok {effects : List Effect} {count total t : ℕ}
    (hcount : count ≤ maxEffects) :
    effectBudgetLoop count total effects = .ok t ↔
      count + effects.length ≤ maxEffects ∧
        (∀ e ∈ effects, e.validatePayload = .ok () ∧ Effect.codec.fits e = true) ∧
        t = total + encodedLength effects := by
  induction effects generalizing count total with
  | nil =>
    constructor
    · intro h
      cases h
      simp [encodedLength, hcount]
    · rintro ⟨-, -, rfl⟩
      simp [effectBudgetLoop]
  | cons e effects ih =>
    simp only [effectBudgetLoop, bind_eq_ok, ensure_eq_ok, okOr_eq_ok, Codec.toVec_eq_some_iff,
      List.length_cons, List.forall_mem_cons, encodedLength, List.map_cons, List.sum_cons]
    constructor
    · rintro ⟨_, hle, _, hp, _, ⟨hf, rfl⟩, h⟩
      obtain ⟨hlen, hall, rfl⟩ := (ih hle).1 h
      exact ⟨by omega, ⟨⟨hp, hf⟩, hall⟩, by simp [encodedLength, Nat.add_assoc]⟩
    · rintro ⟨hlen, ⟨⟨hp, hf⟩, hall⟩, rfl⟩
      have hle : count + 1 ≤ maxEffects := by omega
      exact ⟨(), hle, (), hp, _, ⟨hf, rfl⟩,
        (ih hle).2 ⟨by omega, hall, by simp [encodedLength, Nat.add_assoc]⟩⟩

theorem checkEffectBudget_eq_ok {effects : List Effect} :
    checkEffectBudget effects = .ok () ↔
      effects.length ≤ maxEffects ∧
        (∀ e ∈ effects, e.validatePayload = .ok () ∧ Effect.codec.fits e = true) ∧
        4 + encodedLength effects ≤ maxEffectBytes := by
  simp only [checkEffectBudget, ensureEncoded, bind_eq_ok, ensure_eq_ok,
    effectBudgetLoop_eq_ok (Nat.zero_le maxEffects), Nat.zero_add]
  constructor
  · rintro ⟨_, ⟨hlen, hall, rfl⟩, hle⟩
    exact ⟨hlen, hall, hle⟩
  · rintro ⟨hlen, hall, hle⟩
    exact ⟨_, ⟨hlen, hall, rfl⟩, hle⟩

theorem checkEffectBudget_sublist {effects kept : List Effect} (hs : kept.Sublist effects)
    (h : checkEffectBudget effects = .ok ()) : checkEffectBudget kept = .ok () := by
  obtain ⟨hlen, hall, hle⟩ := checkEffectBudget_eq_ok.1 h
  have hsum : encodedLength kept ≤ encodedLength effects :=
    (hs.map _).sum_le_sum fun _ _ => Nat.zero_le _
  refine checkEffectBudget_eq_ok.2 ⟨hs.length_le.trans hlen, ?_, by omega⟩
  exact fun e he => hall e (hs.subset he)

/-- Check the retained effects of a proposal with their ordinals. -/
def validateEffects (effects : List (UInt32 × Effect)) : Except ProtocolError Unit := do
  ensure (∀ p ∈ effects, p.1.toNat < maxEffects)
    (.invalidCertificate "effect ordinal is outside the dispatch range")
  ensure ((effects.map (·.1.toNat)).IsChain (· < ·))
    (.invalidCertificate "effect ordinals are not strictly increasing")
  checkEffectBudget (effects.map (·.2))

end Arena0
