import Arena0.Actor

/-!
# The effect imports of the sandbox

The host functions through which a guest emits effects during one dispatch.  Each
call charges the ledger of the dispatch, reads its arguments from the guest's work
memory and is checked against the effects emitted before it.  A trap ends the
dispatch without effects.
-/

namespace Arena0

open Borsh Fallible

variable {κ : Primitives}

def ExecutionState.directQueueLens (s : ExecutionState κ) : List (PeerId × ℕ) :=
  (s.direct.entries.filter fun p => !p.2.queue.isEmpty).map fun p => (p.1, p.2.queue.length)

namespace Sandbox

inductive CallKind where
  | prepare | metadata | init | dispatch | query | view | outcome
  deriving DecidableEq

def CallKind.allowsEffects : CallKind → Bool
  | .dispatch => true
  | _ => false

inductive DispatchKind where
  | agreed | «local»
  deriving DecidableEq

/-- The limits of the execution profile that the effect imports read. -/
structure Limits where
  maxHostCalls : UInt64
  maxHostBytes : UInt64
  maxEffectsPerDispatch : UInt64
  maxEffectBytes : UInt64

inductive SandboxError where
  | inputLimitExceeded (message : String)
  | hostCallLimitExceeded (count max : UInt64)
  | effectBytesLimitExceeded (actual max : UInt64)
  | intentOverflow (count max : UInt32)

inductive Trap where
  | message (text : String)
  | unavailable (effect : Effect) (kind : CallKind)
  | sandbox (error : SandboxError)

/-! ## The ledger -/

def saturatingAdd (a b : UInt64) : UInt64 := .ofNat (min (a.toNat + b.toNat) (2 ^ 64 - 1))

/-- A length as a `u64`, or the largest one. -/
def saturatingLength (n : ℕ) : UInt64 := .ofNat (min n (2 ^ 64 - 1))

def saturatingCount (n : UInt64) : UInt32 := .ofNat (min n.toNat (2 ^ 32 - 1))

structure ResourceLedger where
  hostCalls : UInt64
  hostBytes : UInt64
  effectBytes : UInt64
  effectEntries : UInt64

namespace ResourceLedger

def new : ResourceLedger := ⟨0, 0, 0, 0⟩

def hostCall (ledger : ResourceLedger) (max : UInt64) : Except SandboxError ResourceLedger := do
  let count := saturatingAdd ledger.hostCalls 1
  ensure (count ≤ max) (.hostCallLimitExceeded count max)
  return { ledger with hostCalls := count }

def copyBytes (ledger : ResourceLedger) (bytes : ℕ) (max : UInt64) :
    Except SandboxError ResourceLedger := do
  let total := saturatingAdd ledger.hostBytes (saturatingLength bytes)
  ensure (total ≤ max) (.inputLimitExceeded s!"host copied {total} bytes; maximum is {max}")
  return { ledger with hostBytes := total }

def effect (ledger : ResourceLedger) (bytes : ℕ) (maxBytes maxEntries : UInt64) :
    Except SandboxError ResourceLedger := do
  let entries := saturatingAdd ledger.effectEntries 1
  let total := saturatingAdd ledger.effectBytes (saturatingLength bytes)
  ensure (entries ≤ maxEntries)
    (.intentOverflow (saturatingCount entries) (saturatingCount maxEntries))
  ensure (total ≤ maxBytes) (.effectBytesLimitExceeded total maxBytes)
  return { ledger with effectEntries := entries, effectBytes := total }

end ResourceLedger

/-! ## Recording effects -/

structure HostState where
  callKind : CallKind
  dispatch : DispatchKind
  /-- Committed outgoing messages before this dispatch began. -/
  outgoingLen : ℕ
  limits : Limits
  effectQueue : List Effect
  ledger : ResourceLedger
  /-- The granted length of a blob, when a view is installed. -/
  blobs : Option (BlobHash → Except String (Option UInt64))
  directQueued : List (PeerId × ℕ)
  peerId : Option PeerId
  session : Option Ensemble

def effectName : Effect → String
  | .sessionEnd _ => "end_session"
  | .sessionAbort _ => "abort_session"
  | .fail _ => "fail"
  | .setTimer .. => "set_timer"
  | .broadcast _ => "broadcast"
  | .sendDirect .. => "send_direct"

def isSendDirectTo (peer : PeerId) : Effect → Bool
  | .sendDirect recipient .. => recipient = peer
  | _ => false

namespace HostState

def beginImport (host : HostState) : Except Trap HostState := do
  let ledger ← (host.ledger.hostCall host.limits.maxHostCalls).mapError .sandbox
  return { host with ledger := ledger }

def rejectReadOnly (host : HostState) (name : String) : Except Trap Unit :=
  ensure (host.callKind.allowsEffects = true)
    (.message (name ++ ": effect imports are unavailable to this call"))

def requireLocal (host : HostState) (name : String) : Except Trap Unit := do
  host.rejectReadOnly name
  ensure (host.dispatch = .local) (.message (name ++ ": only available in local handlers"))

/-- Copy bytes out of the guest's work memory.  The sum of two `u32` does not overflow. -/
def readGuestBytes (host : HostState) (memory : Bytes) (ptr len : UInt32) (label : String) :
    Except Trap (HostState × Bytes) := do
  let ledger ← (host.ledger.copyBytes len.toNat host.limits.maxHostBytes).mapError .sandbox
  ensure (ptr.toNat + len.toNat ≤ memory.length) (.message (label ++ ": read out of bounds"))
  return ({ host with ledger := ledger }, (memory.drop ptr.toNat).take len.toNat)

/-- A lifecycle effect is alone of its kind, is not combined with a timer and belongs to an
agreed event. -/
def checkLifecycle (host : HostState) (effect : Effect) : Except Trap Unit := do
  if effect.isLifecycle then
    ensure (host.dispatch = .agreed) (.message
      (effectName effect ++ ": a lifecycle effect is only available to agreed events"))
    ensure (host.effectQueue.any Effect.isLifecycle = false)
      (.message "at most one lifecycle effect is allowed per dispatch")
    ensure (host.effectQueue.any Effect.isSetTimer = false)
      (.message "a lifecycle effect cannot be combined with SetTimer")
  else
    ensure (effect.isSetTimer = false ∨ host.effectQueue.any Effect.isLifecycle = false)
      (.message "SetTimer cannot be combined with a lifecycle effect")

/-- Emit one effect.  Every limit of the protocol is enforced here. -/
def recordEffect (host : HostState) (effect : Effect) : Except Trap HostState := do
  ensure (host.callKind.allowsEffects = true) (.unavailable effect host.callKind)
  ensure (effect.isSendDirect = false ∨ host.dispatch = .local)
    (.message "send_direct: only available in local handlers")
  host.checkLifecycle effect
  (checkEffectBudget (host.effectQueue ++ [effect])).mapError fun error =>
    Trap.message s!"effect rejected: {error}"
  let bytes ← okOr (Effect.codec.toVec effect) (.message "effect encoding failed")
  let ledger ← (host.ledger.effect bytes.length host.limits.maxEffectBytes
    host.limits.maxEffectsPerDispatch).mapError .sandbox
  return { host with ledger := ledger, effectQueue := host.effectQueue ++ [effect] }

end HostState

/-! ## The imports -/

inductive Import where
  | endSession (outcomePtr outcomeLen : UInt32)
  | abortSession (reasonPtr reasonLen : UInt32)
  | fail (reasonPtr reasonLen : UInt32)
  | setTimer (delayMs : UInt64) (typePtr typeLen dataPtr dataLen : UInt32)
  | broadcast (dataPtr dataLen : UInt32)
  | sendDirect (toPtr msgPtr msgLen rangePtr rangeLen : UInt32)

section

-- `String::from_utf8_lossy`
variable (fromUtf8Lossy : Bytes → String)

namespace HostState

def emitBytes (host : HostState) (memory : Bytes) (name : String) (ptr len : UInt32)
    (effect : Bytes → Effect) : Except Trap (HostState × UInt32) := do
  let host ← host.beginImport
  host.rejectReadOnly name
  let (host, bytes) ← host.readGuestBytes memory ptr len name
  let host ← host.recordEffect (effect bytes)
  return (host, 0)

def setTimer (host : HostState) (memory : Bytes) (delayMs : UInt64)
    (typePtr typeLen dataPtr dataLen : UInt32) : Except Trap (HostState × UInt32) := do
  let host ← host.beginImport
  host.rejectReadOnly "set_timer"
  let (host, typeBytes) ← host.readGuestBytes memory typePtr typeLen "set_timer:type"
  let typeName ← okOr (Codec.ofUtf8? typeBytes) (.message "set_timer: invalid type name")
  let (host, data) ← host.readGuestBytes memory dataPtr dataLen "set_timer:data"
  let host ← host.recordEffect (.setTimer delayMs ⟨typeName, data⟩)
  return (host, 0)

/-- Queue a message to every participant.  Only a local handler sees the bound. -/
def broadcast (host : HostState) (memory : Bytes) (dataPtr dataLen : UInt32) :
    Except Trap (HostState × UInt32) := do
  let host ← host.beginImport
  host.rejectReadOnly "broadcast"
  let queuedHere := host.effectQueue.countP Effect.isBroadcast
  if host.dispatch = .local ∧ maxOutgoingMessages ≤ host.outgoingLen + queuedHere then
    return (host, 1)
  else do
    let (host, data) ← host.readGuestBytes memory dataPtr dataLen "broadcast:data"
    let host ← host.recordEffect (.broadcast data)
    return (host, 0)

/-- The blob range a direct message carries; its length zero means none. -/
def readRange (host : HostState) (memory : Bytes) (rangePtr rangeLen : UInt32) :
    Except Trap (HostState × Option RangeAttachment) := do
  if rangeLen = 0 then return (host, none)
  else do
    let (host, bytes) ← host.readGuestBytes memory rangePtr rangeLen "send_direct"
    let range ← okOr (RangeAttachment.codec.fromSlice bytes) (.message "invalid range attachment")
    let granted ← okOr host.blobs (.message "blob view unavailable")
    let length ← (granted range.hash).mapError .message
    let length ← okOr length (.message "send_direct: blob not granted")
    ensure (range.start < range.stop ∧ range.stop ≤ length ∧
      range.stop.toNat - range.start.toNat ≤ maxDirectRangeBytes)
      (.message "send_direct: invalid source range")
    return (host, some range)

/-- The length of a peer's direct queue before this dispatch began. -/
def queuedTo (host : HostState) (peer : PeerId) : ℕ :=
  ((host.directQueued.find? (·.1 = peer)).map (·.2)).getD 0

def sendDirect (host : HostState) (memory : Bytes)
    (toPtr msgPtr msgLen rangePtr rangeLen : UInt32) : Except Trap (HostState × UInt32) := do
  let host ← host.beginImport
  host.requireLocal "send_direct"
  let (host, bytes) ← host.readGuestBytes memory toPtr 32 "send_direct"
  let bytes ← okOr (FixedBytes.ofBytes? 32 bytes) (.message "peer width")
  let recipient : PeerId := ⟨bytes⟩
  let session ← okOr host.session (.message "dispatch session installed")
  ensure (host.peerId ≠ some recipient ∧ session.peers.contains recipient = true)
    (.message "send_direct: recipient must be another participant")
  ensure (msgLen.toNat ≤ maxDirectControlBytes)
    (.message "send_direct: control message exceeds limit")
  let (host, range) ← host.readRange memory rangePtr rangeLen
  let queuedHere := host.effectQueue.countP (isSendDirectTo recipient)
  if maxDirectQueue ≤ host.queuedTo recipient + queuedHere then return (host, 1)
  else do
    let (host, msg) ← host.readGuestBytes memory msgPtr msgLen "send_direct"
    let host ← host.recordEffect (.sendDirect recipient msg range)
    return (host, 0)

def call (host : HostState) (memory : Bytes) : Import → Except Trap (HostState × UInt32)
  | .endSession ptr len => host.emitBytes memory "end_session" ptr len .sessionEnd
  | .abortSession ptr len =>
    host.emitBytes memory "abort_session" ptr len fun reason => .sessionAbort (fromUtf8Lossy reason)
  | .fail ptr len => host.emitBytes memory "fail" ptr len fun reason => .fail (fromUtf8Lossy reason)
  | .setTimer delayMs typePtr typeLen dataPtr dataLen =>
    host.setTimer memory delayMs typePtr typeLen dataPtr dataLen
  | .broadcast ptr len => host.broadcast memory ptr len
  | .sendDirect toPtr msgPtr msgLen rangePtr rangeLen =>
    host.sendDirect memory toPtr msgPtr msgLen rangePtr rangeLen

def run (host : HostState) : List (Bytes × Import) → Except Trap HostState
  | [] => .ok host
  | (memory, imported) :: calls => do
    let (host, _) ← host.call fromUtf8Lossy memory imported
    host.run calls

end HostState

end

/-! ## What one call can do -/

namespace HostState

structure Recorded (host : HostState) (effect : Effect) : Prop where
  direct : effect.isSendDirect = false ∨ host.dispatch = .local
  lifecycle : host.checkLifecycle effect = .ok ()
  budget : checkEffectBudget (host.effectQueue ++ [effect]) = .ok ()

/-- The check an import makes itself before it records an effect. -/
def Permits (host : HostState) : Effect → Prop
  | .broadcast _ => host.dispatch = .local →
      host.outgoingLen + host.effectQueue.countP Effect.isBroadcast < maxOutgoingMessages
  | .sendDirect recipient _ _ => host.peerId ≠ some recipient ∧
      (∃ session ∈ host.session, recipient ∈ session.peers) ∧
      host.queuedTo recipient + host.effectQueue.countP (isSendDirectTo recipient) < maxDirectQueue
  | _ => True

/-- One call of an import leaves the queue as it is or appends one effect. -/
inductive Called (host : HostState) : HostState → Prop
  | quiet (ledger : ResourceLedger) : Called host { host with ledger := ledger }
  | emits (ledger : ResourceLedger) {effect : Effect} (hpermits : host.Permits effect)
      (hrecorded : host.Recorded effect) :
      Called host { host with ledger := ledger, effectQueue := host.effectQueue ++ [effect] }

variable {host host' : HostState}

theorem beginImport_eq_ok (h : host.beginImport = .ok host') :
    ∃ ledger, host' = { host with ledger := ledger } := by
  simp only [beginImport, bind_eq_ok, pure_eq_ok] at h
  obtain ⟨ledger, -, rfl⟩ := h
  exact ⟨ledger, rfl⟩

variable {memory : Bytes} {ptr len : UInt32}

theorem readGuestBytes_eq_ok {bytes : Bytes} {label : String}
    (h : host.readGuestBytes memory ptr len label = .ok (host', bytes)) :
    ∃ ledger, host' = { host with ledger := ledger } := by
  simp only [readGuestBytes, bind_eq_ok, pure_eq_ok, Prod.mk.injEq] at h
  obtain ⟨ledger, -, _, -, rfl, -⟩ := h
  exact ⟨ledger, rfl⟩

theorem readRange_eq_ok {range : Option RangeAttachment}
    (h : host.readRange memory ptr len = .ok (host', range)) :
    ∃ ledger, host' = { host with ledger := ledger } := by
  unfold readRange at h
  split at h
  · cases h
    exact ⟨host.ledger, rfl⟩
  · simp only [bind_eq_ok, Prod.exists, pure_eq_ok, Prod.mk.injEq] at h
    obtain ⟨_, _, hread, _, -, _, -, _, -, _, -, _, -, rfl, -⟩ := h
    exact readGuestBytes_eq_ok hread

theorem recordEffect_eq_ok {effect : Effect} (h : host.recordEffect effect = .ok host') :
    host.Recorded effect ∧ ∃ ledger,
      host' = { host with ledger := ledger, effectQueue := host.effectQueue ++ [effect] } := by
  simp only [recordEffect, bind_eq_ok, ensure_eq_ok, mapError_eq_ok, pure_eq_ok] at h
  obtain ⟨_, -, _, hdirect, _, hlifecycle, _, hbudget, _, -, ledger, -, rfl⟩ := h
  exact ⟨⟨hdirect, hlifecycle, hbudget⟩, ledger, rfl⟩

variable {code : UInt32}

theorem emitBytes_called {name : String} {effect : Bytes → Effect}
    (hpermits : ∀ bytes, host.Permits (effect bytes))
    (h : host.emitBytes memory name ptr len effect = .ok (host', code)) : Called host host' := by
  simp only [emitBytes, bind_eq_ok, Prod.exists, pure_eq_ok, Prod.mk.injEq] at h
  obtain ⟨_, hbegin, _, -, _, bytes, hread, _, hrecord, rfl, -⟩ := h
  obtain ⟨_, rfl⟩ := beginImport_eq_ok hbegin
  obtain ⟨_, rfl⟩ := readGuestBytes_eq_ok hread
  obtain ⟨hrecorded, ledger, rfl⟩ := recordEffect_eq_ok hrecord
  exact .emits ledger (hpermits bytes) { hrecorded with }

theorem setTimer_called {delayMs : UInt64} {typePtr typeLen dataPtr dataLen : UInt32}
    (h : host.setTimer memory delayMs typePtr typeLen dataPtr dataLen = .ok (host', code)) :
    Called host host' := by
  simp only [setTimer, bind_eq_ok, Prod.exists, pure_eq_ok, Prod.mk.injEq] at h
  obtain ⟨_, hbegin, _, -, _, _, htype, _, -, _, _, hdata, _, hrecord, rfl, -⟩ := h
  obtain ⟨_, rfl⟩ := beginImport_eq_ok hbegin
  obtain ⟨_, rfl⟩ := readGuestBytes_eq_ok htype
  obtain ⟨_, rfl⟩ := readGuestBytes_eq_ok hdata
  obtain ⟨hrecorded, ledger, rfl⟩ := recordEffect_eq_ok hrecord
  exact .emits ledger trivial { hrecorded with }

theorem broadcast_called (h : host.broadcast memory ptr len = .ok (host', code)) :
    Called host host' := by
  simp only [broadcast, bind_eq_ok] at h
  obtain ⟨_, hbegin, _, -, h⟩ := h
  obtain ⟨ledger, rfl⟩ := beginImport_eq_ok hbegin
  split at h
  · cases h
    exact .quiet ledger
  · rename_i hroom
    simp only [bind_eq_ok, Prod.exists, pure_eq_ok, Prod.mk.injEq] at h
    obtain ⟨_, _, hread, _, hrecord, rfl, -⟩ := h
    obtain ⟨_, rfl⟩ := readGuestBytes_eq_ok hread
    obtain ⟨hrecorded, ledger, rfl⟩ := recordEffect_eq_ok hrecord
    refine .emits ledger ?_ { hrecorded with }
    intro hlocal
    by_contra hfull
    exact hroom ⟨hlocal, not_lt.1 hfull⟩

theorem sendDirect_called {toPtr msgPtr msgLen rangePtr rangeLen : UInt32}
    (h : host.sendDirect memory toPtr msgPtr msgLen rangePtr rangeLen = .ok (host', code)) :
    Called host host' := by
  simp only [sendDirect, bind_eq_ok, Prod.exists, okOr_eq_ok, ensure_eq_ok] at h
  obtain ⟨_, hbegin, _, -, _, _, hto, bytes, -, session, hsession, _, ⟨hself, hpeer⟩, _, -, _,
    range, hrange, h⟩ := h
  obtain ⟨_, rfl⟩ := beginImport_eq_ok hbegin
  obtain ⟨_, rfl⟩ := readGuestBytes_eq_ok hto
  obtain ⟨ledger, rfl⟩ := readRange_eq_ok hrange
  split at h
  · cases h
    exact .quiet ledger
  · rename_i hroom
    simp only [bind_eq_ok, Prod.exists, pure_eq_ok, Prod.mk.injEq] at h
    obtain ⟨_, _, hread, _, hrecord, rfl, -⟩ := h
    obtain ⟨_, rfl⟩ := readGuestBytes_eq_ok hread
    obtain ⟨hrecorded, ledger, rfl⟩ := recordEffect_eq_ok hrecord
    have hmem := List.contains_iff_mem.1 hpeer
    exact .emits ledger ⟨hself, ⟨session, hsession, hmem⟩, not_le.1 hroom⟩ { hrecorded with }

theorem call_called {fromUtf8Lossy : Bytes → String} {imported : Import}
    (h : host.call fromUtf8Lossy memory imported = .ok (host', code)) : Called host host' := by
  cases imported with
  | endSession | abortSession | fail =>
    simp only [call] at h
    refine emitBytes_called ?_ h
    exact fun _ => trivial
  | setTimer => exact setTimer_called h
  | broadcast => exact broadcast_called h
  | sendDirect => exact sendDirect_called h

end HostState

end Sandbox

end Arena0
