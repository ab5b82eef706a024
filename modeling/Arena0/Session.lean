import Arena0.Signing

/-!
# A session of hosts

The participants that run this code exchange frames over an authenticated
transport that loses, duplicates, delays and reorders them; all other participants
are arbitrary, except that they forge no signature of a participant that runs this
code.  A run is a list of actions, and an action that is not enabled does nothing.
-/

namespace Arena0

open Borsh Fallible Actor ExecutionState

variable {κ : Primitives}

/-! ## The transport -/

structure Packet where
  source : PeerId
  recipient : PeerId
  frame : ExecFrame
  deriving DecidableEq

/-- An answer on its way back to the source of a packet. -/
structure Answer where
  packet : Packet
  result : Option ExecDeliveryRejection
  deriving DecidableEq

/-- What the source of a packet makes of its answer. -/
def SendOutcome.ofResult : Option ExecDeliveryRejection → SendOutcome
  | none => .acknowledged
  | some rejection => .refused rejection

/-- How the source of a frame identifies its send. -/
def Sent.ofFrame (κ : Primitives) : ExecFrame → Option Sent
  | .direct seq _ _ => some (.direct seq)
  | frame => (frameDigest κ frame).map .protocol

/-- The frames an actor may send to a peer: a selected protocol frame, or the head of the
direct queue, whose attachment is left out when its source cannot be read. -/
def Actor.sends (s : ExecutionState κ) (peer : PeerId) : ExecFrame → Bool
  | .direct seq msg attachment =>
    match directHead s peer with
    | some entry => entry.seq = seq && entry.msg = msg &&
        (attachment.isNone || entry.range.isSome)
    | none => false
  | frame => frame ∈ deliverFrames s peer

/-! ## Sessions -/

/-- The participants that run this code, with their keys. -/
structure Parties where
  correct : Finset PeerId
  keys : PeerId → HostKeys
  peerId_keys : ∀ i ∈ correct, (keys i).peerId = i

variable (κ) in
/-- The hosts of the parties, every packet sent so far and every answer given so far. -/
structure Session where
  host : PeerId → Host κ
  packets : List Packet
  answers : List Answer

inductive Action where
  | input (i : PeerId) (nowMs : UInt64) (input : Input)
  | send (packet : Packet)
  | route (packet : Packet)

namespace Session

variable (parties : Parties)

def SignedByAll (sys : Session κ) (c : StepCommitment) : Prop :=
  ∀ k ∈ parties.correct, c ∈ (sys.host k).signed k

/-- An occurrence under a party's name carries the bytes of a stop which that party has issued. -/
def Issued (sys : Session κ) (occurrence : AbortOccurrence) : Prop :=
  occurrence.sender ∈ parties.correct →
    ∃ issued ∈ (sys.host occurrence.sender).stops, issued.signingBytes = occurrence.signingBytes

/-- What an arbitrary participant may present to a party: a certificate that verifies needs the
signatures of all parties, and an occurrence that verifies under a party's identity was signed
by that party. -/
def Unforged (sys : Session κ) (i : PeerId) : ExecFrame → Prop
  | .stepCertificate certificate =>
    certificate.verify (sys.host i).db.state.binding = .ok () →
      sys.SignedByAll parties certificate.commitment
  | .abort occurrence => occurrence.verifySignature κ = .ok true → sys.Issued parties occurrence
  | _ => True

instance (sys : Session κ) (c : StepCommitment) : Decidable (sys.SignedByAll parties c) :=
  inferInstanceAs (Decidable (∀ k ∈ parties.correct, _))

instance (sys : Session κ) (occurrence : AbortOccurrence) :
    Decidable (sys.Issued parties occurrence) :=
  inferInstanceAs (Decidable (_ → _))

instance (sys : Session κ) (i : PeerId) :
    (frame : ExecFrame) → Decidable (sys.Unforged parties i frame)
  | .stepCertificate _ | .abort _ => inferInstanceAs (Decidable (_ → _))
  | .message .. | .stepSignature .. | .direct .. => inferInstanceAs (Decidable True)

/-- A party receives what was sent to it by a party, or anything unforged. -/
def Delivers (sys : Session κ) (packet : Packet) : Prop :=
  if packet.source ∈ parties.correct then packet ∈ sys.packets
  else sys.Unforged parties packet.recipient packet.frame

instance (sys : Session κ) (packet : Packet) : Decidable (sys.Delivers parties packet) :=
  inferInstanceAs (Decidable (ite _ _ _))

/-- A party that answers is heard with the answers it gave; a send can always fail. -/
def Settles (sys : Session κ) (i peer : PeerId) (sent : Sent) (outcome : SendOutcome) : Prop :=
  peer ∈ parties.correct → outcome ≠ .failed →
    ∃ answer ∈ sys.answers, answer.packet.source = i ∧ answer.packet.recipient = peer ∧
      Sent.ofFrame κ answer.packet.frame = some sent ∧ SendOutcome.ofResult answer.result = outcome

instance (sys : Session κ) (i peer : PeerId) (sent : Sent) (outcome : SendOutcome) :
    Decidable (sys.Settles parties i peer sent outcome) :=
  inferInstanceAs (Decidable (_ → _ → _))

def Admits (sys : Session κ) (i : PeerId) : Input → Prop
  | .receive source frame _ => sys.Delivers parties ⟨source, i, frame⟩
  | .settle peer sent outcome => sys.Settles parties i peer sent outcome
  | _ => True

instance (sys : Session κ) (i : PeerId) :
    (input : Input) → Decidable (sys.Admits parties i input)
  | .receive source frame _ => inferInstanceAs (Decidable (sys.Delivers parties ⟨source, i, frame⟩))
  | .settle peer sent outcome =>
    inferInstanceAs (Decidable (sys.Settles parties i peer sent outcome))
  | .crash | .restart | .activate | .start _ | .timer .. | .submit .. | .author _ | .sign
  | .stop .. | .publish | .expire => inferInstanceAs (Decidable True)

def answered (i : PeerId) (input : Input) (result : Option (Option ExecDeliveryRejection)) :
    List Answer :=
  match input, result with
  | .receive source frame _, some result => [⟨⟨source, i, frame⟩, result⟩]
  | _, _ => []

def step (sys : Session κ) : Action → Session κ
  | .input i nowMs input =>
    if i ∈ parties.correct ∧ sys.Admits parties i input then
      let (host, result) := (sys.host i).handle (parties.keys i) nowMs input
      { sys with
        host := Function.update sys.host i host
        answers := answered i input result ++ sys.answers }
    else sys
  | .send packet =>
    match (sys.host packet.source).live with
    | some s =>
      if packet.source ∈ parties.correct ∧ sends s packet.recipient packet.frame = true then
        { sys with packets := packet :: sys.packets }
      else sys
    | none => sys
  | .route packet =>
    if packet.recipient ∈ parties.correct ∧ sys.Delivers parties packet ∧
        (sys.host packet.recipient).live = none then
      match routeExec (sys.host packet.recipient).db.state packet.source packet.frame with
      | some result => { sys with answers := ⟨packet, result⟩ :: sys.answers }
      | none => sys
    else sys

def run (sys : Session κ) (actions : List Action) : Session κ := actions.foldl (step parties) sys

/-- Every party has just created its execution of one activation. -/
structure Initial (activation : Activation κ) (sys : Session κ) : Prop where
  created : ∀ i ∈ parties.correct, ∃ db, Host.Created (parties.keys i) db ∧
    db.activation = activation ∧ sys.host i = Host.initial db
  packets : sys.packets = []
  answers : sys.answers = []

def Reachable (activation : Activation κ) (sys : Session κ) : Prop :=
  ∃ start actions, Initial parties activation start ∧ sys = start.run parties actions

/-! ## What one action can do -/

/-- An action does nothing, or what it is enabled to do. -/
inductive Step (sys : Session κ) : Action → Session κ → Prop
  | idle (action : Action) : Step sys action sys
  | input {i : PeerId} {input : Input} {host : Host κ}
      {result : Option (Option ExecDeliveryRejection)} (nowMs : UInt64)
      (hi : i ∈ parties.correct) (hadmits : sys.Admits parties i input)
      (hhandle : (sys.host i).handle (parties.keys i) nowMs input = (host, result)) :
      Step sys (.input i nowMs input) ⟨Function.update sys.host i host, sys.packets,
        answered i input result ++ sys.answers⟩
  | send {packet : Packet} {s : ExecutionState κ} (hsource : packet.source ∈ parties.correct)
      (hlive : (sys.host packet.source).live = some s)
      (hsends : sends s packet.recipient packet.frame = true) :
      Step sys (.send packet) { sys with packets := packet :: sys.packets }
  | route {packet : Packet} {result : Option ExecDeliveryRejection}
      (hrecipient : packet.recipient ∈ parties.correct) (hdelivers : sys.Delivers parties packet)
      (hroute : routeExec (sys.host packet.recipient).db.state packet.source packet.frame
        = some result) :
      Step sys (.route packet) { sys with answers := ⟨packet, result⟩ :: sys.answers }

private theorem step_step (sys : Session κ) (action : Action) :
    Step parties sys action (sys.step parties action) := by
  cases action with
  | input i nowMs input =>
    simp only [step]
    split
    · rename_i h
      exact .input nowMs h.1 h.2 rfl
    · exact .idle _
  | send packet =>
    simp only [step]
    split
    · rename_i s hlive
      split
      · rename_i h
        exact .send h.1 hlive h.2
      · exact .idle _
    · exact .idle _
  | route packet =>
    simp only [step]
    split
    · rename_i h
      split
      · rename_i result hroute
        exact .route h.1 h.2.1 hroute
      · exact .idle _
    · exact .idle _

/-- Every step of a run meets a condition on the session before it and its action. -/
def AllSteps (condition : Session κ → Action → Prop) : Session κ → List Action → Prop
  | _, [] => True
  | sys, action :: actions =>
    condition sys action ∧ AllSteps condition (sys.step parties action) actions

/-- A property of the first session that the steps of a run keep holds of the session reached. -/
theorem run_induction {P : Session κ → Prop} {condition : Session κ → Action → Prop}
    {sys : Session κ} {actions : List Action} (hsys : P sys)
    (hstep : ∀ {sys sys' action}, P sys → condition sys action → Step parties sys action sys' →
      P sys') (hsteps : AllSteps parties condition sys actions) : P (sys.run parties actions) := by
  induction actions generalizing sys with
  | nil => exact hsys
  | cons action actions ih =>
    exact ih (hstep hsys hsteps.1 (sys.step_step parties action)) hsteps.2

theorem allSteps_true (sys : Session κ) (actions : List Action) :
    AllSteps parties (fun _ _ => True) sys actions := by
  induction actions generalizing sys with
  | nil => trivial
  | cons action actions ih => exact ⟨trivial, ih _⟩

end Session

/-! ## The reference session -/

namespace Sample

def parties : Parties where
  correct := {peer 1, peer 2}
  keys i := if i = peer 1 then keys 1 else keys 2
  peerId_keys := by decide

def session : Session referencePrimitives :=
  ⟨fun i => if i = peer 1 then .initial (db 1) else .initial (db 2), [], []⟩

theorem initial_session : Session.Initial parties activation session := by
  refine ⟨?_, rfl, rfl⟩
  intro i hi
  rcases Finset.mem_insert.1 hi with rfl | hi
  · exact ⟨db 1, created_one, rfl, rfl⟩
  · obtain rfl := Finset.mem_singleton.1 hi
    exact ⟨db 2, created_two, rfl, rfl⟩

theorem mem_parties (i : PeerId) (hi : (⟨activation⟩ : ExecutionBinding
    referencePrimitives).isParticipant i = true) : i ∈ parties.correct := by
  have hsub : ∀ k ∈ binding.participants, k ∈ parties.correct := by decide +kernel
  exact hsub i ((binding.isParticipant_iff i).1 hi)

def startSignature (n : UInt8) : ExecFrame :=
  .stepSignature startCommitment
    (referenceBytes 48 (if n = 1 then 628261983862377254 else 1138100667352102205))

/-- A participant activates, starts the session and signs its start. -/
def signStart (n : UInt8) : List Action :=
  [.input (peer n) 0 .activate, .input (peer n) 0 (.start (accepted [])), .input (peer n) 0 .sign]

def sendStart (source recipient : UInt8) : Action :=
  .send ⟨peer source, peer recipient, startSignature source⟩

/-- The signature of one participant for the session start reaches the other one. -/
def deliverStart (source recipient : UInt8) : Action :=
  .input (peer recipient) 0 (.receive (peer source) (startSignature source) (accepted []))

end Sample

end Arena0
