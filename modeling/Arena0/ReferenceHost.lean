import Arena0.HostInvariant
import Arena0.Reference

/-!
# The hosts of the reference session

The keys of a participant of the reference session, the rows of the execution it
creates and the replies of a program that accepts every dispatch.
-/

namespace Arena0

open Borsh Fallible Actor

namespace Sample

def keys (n : UInt8) : HostKeys where
  peerId := peer n
  sign := referenceSign 48 (key n).bytes
  identitySign := referenceSign 64 (peer n).bytes.bytes

def db (n : UInt8) : Db referencePrimitives where
  hostId := peer n
  activation := activation
  state := state n
  events := []
  agreedSteps := []
  timers := []
  receipts := []
  production := none

theorem create_eq_ok {n : UInt8} (hn : binding.isParticipant (peer n) = true)
    (hfits : (state n).encode.isOk = true) :
    Db.create (keys n).peerId [] executionId activation (peer n) shared localState 0
      = .ok (db n) := by
  obtain ⟨bytes, hbytes⟩ : ∃ bytes, (state n).encode = .ok bytes := by
    cases hencode : (state n).encode with
    | ok bytes => exact ⟨bytes, rfl⟩
    | error error =>
      rw [hencode] at hfits
      cases hfits
  have hzero : (0 : UInt64).toNat < 2 ^ 63 := by decide
  simp only [Db.create, new_eq_ok hn, sqliteU64, bind_eq_ok, mapError_eq_ok, pure_eq_ok,
    ensure_eq_ok]
  exact ⟨_, rfl, (), rfl, (), rfl, bytes, hbytes, (), rfl, (), hzero, (), hzero, (), hzero, (),
    hzero, rfl⟩

theorem created_one : Host.Created (keys 1) (db 1) :=
  ⟨_, _, _, _, _, _, _, create_eq_ok (by decide +kernel) (by decide +kernel)⟩

theorem created_two : Host.Created (keys 2) (db 2) :=
  ⟨_, _, _, _, _, _, _, create_eq_ok (by decide +kernel) (by decide +kernel)⟩

def accepted (effects : List Effect) : GuestReply :=
  .accepted (some shared) (some localState) effects none (.error "no outcome")

def activeHost : Host referencePrimitives := (Host.initial (db 1)).run (keys 1) [(0, .activate)]

def startCommitment : StepCommitment where
  domain := stepCommitDomain
  sessionId := binding.sessionId
  step := 0
  entryHash := referenceBytes 32 303807723123562041
  preState := offerData.initialState
  postState := offerData.initialState
  link := chainStart

/-- The inputs that certify the session start at the first participant. -/
def certifyStart : List (UInt64 × Input) :=
  [(0, .activate), (0, .start (accepted [])), (0, .sign),
    (0, .receive (peer 2) (.stepSignature startCommitment (referenceBytes 48 1138100667352102205))
      (accepted []))]

/-- The first participant of the reference session, stopped after the certified session start. -/
def stoppedHost : Host referencePrimitives :=
  (Host.initial (db 1)).run (keys 1)
    (certifyStart ++ [(0, .stop .abort 0 "done")])

def finalState : SharedStateBytes := ⟨[1], by decide⟩

def ending (payload : SharedStateBytes) : GuestReply :=
  .accepted (some payload) (some localState) [.sessionEnd [1]] none
    (.ok ([1], Codec.utf8 "\x7b\x7d"))

def endCommitment : StepCommitment :=
  { startCommitment with
    step := 1
    entryHash := referenceBytes 32 938589069261289266
    postState := ⟨referenceBytes 32 992703980811881184⟩
    link := referenceBytes 32 1397338461132313707 }

/-- The first participant, whose session a message of the second one ended. -/
def endedHost : Host referencePrimitives :=
  (Host.initial (db 1)).run (keys 1) (certifyStart ++
    [(0, .receive (peer 2) (.message endCommitment [7]) (ending finalState)), (0, .sign),
      (0, .receive (peer 2) (.stepSignature endCommitment (referenceBytes 48 400939203812612610))
        (ending finalState))])

end Sample

end Arena0
