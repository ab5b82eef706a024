import Arena0.Actor
import Arena0.Recovery

/-!
# One host

A host holds the durable rows of one execution and, while it runs, the actor's
copy of the aggregate.  Inputs arrive in any order, the actor may crash between
any two of them, and a restart loads the last persisted aggregate.  The journal
is a history of the committed transitions; no code reads it.
-/

namespace Arena0

open Borsh Fallible Actor

variable {κ : Primitives}

inductive Input where
  | crash
  | restart
  | activate
  | start (reply : GuestReply)
  | timer (timerId : TimerId) (reply : GuestReply)
  | submit (pendingId : UInt64) (data : Bytes) (reply : GuestReply)
  | author (reply : GuestReply)
  | sign
  | stop (kind : AbortKind) (code : UInt32) (reason : String)
  | publish
  | receive (source : PeerId) (frame : ExecFrame) (reply : GuestReply)
  | settle (peer : PeerId) (sent : Sent) (outcome : SendOutcome)
  | expire

/-- What the actor decides on an input.  Only a received frame is answered with a rejection. -/
def Actor.handle (keys : HostKeys) (db : Db κ) (s : ExecutionState κ) (nowMs : UInt64) :
    Input → Decision κ (Option ExecDeliveryRejection)
  | .crash | .restart => .done none
  | .activate => (recover s).map fun _ => none
  | .start reply => (ensureSessionStarted s reply).map fun _ => none
  | .timer timerId reply =>
    match (db.dueTimers nowMs).find? (·.timerId = timerId) with
    | some row => (fireTimer s row reply).map fun _ => none
    | none => .done none
  | .submit pendingId data reply => (submitInput s pendingId data reply).map fun _ => none
  | .author reply => (authorNextMessage s reply).map fun _ => none
  | .sign => (ensureStepSignature keys s).map fun _ => none
  | .stop kind code reason => (persistAbort keys s kind code reason).map fun _ => none
  | .publish => (Actor.publishReceipt db s).map fun _ => none
  | .receive source frame reply => acceptFrame s source frame reply
  | .settle peer sent outcome => (settleSend s peer sent outcome).map fun _ => none
  | .expire => (expireConfirmation s).map fun _ => none

variable (κ) in
/-- One committed transition. -/
structure Record where
  before : ExecutionState κ
  input : Input
  next : ExecutionState κ

variable (κ) in
structure Host where
  db : Db κ
  live : Option (ExecutionState κ)
  journal : List (Record κ)

namespace Host

def initial (db : Db κ) : Host κ := ⟨db, some db.state, []⟩

/-- Carry out a decision.  A failed transaction reloads the last durable aggregate. -/
def perform (h : Host κ) (nowMs : UInt64) (input : Input) (s : ExecutionState κ)
    (decision : Decision κ (Option ExecDeliveryRejection)) :
    Host κ × Option (Option ExecDeliveryRejection) :=
  match decision with
  | .done result => (h, some result)
  | .fail _ => (h, none)
  | .commit next change result =>
    match h.db.persistInTransaction s.version next change nowMs with
    | .ok db => (⟨db, some next, ⟨s, input, next⟩ :: h.journal⟩, some result)
    | .error _ => ({ h with live := some h.db.state }, none)

/-- Take one input, and answer it unless the actor failed or does not run. -/
def handle (keys : HostKeys) (h : Host κ) (nowMs : UInt64) (input : Input) :
    Host κ × Option (Option ExecDeliveryRejection) :=
  match input with
  | .crash => ({ h with live := none }, none)
  | .restart =>
    if h.live.isNone ∧ h.db.state.validateRecovered = .ok () then
      ({ h with live := some h.db.state }, none)
    else (h, none)
  | input =>
    match h.live with
    | none => (h, none)
    | some s => h.perform nowMs input s (Actor.handle keys h.db s nowMs input)

/-- The host after a sequence of inputs, each with the clock it was taken at. -/
def run (keys : HostKeys) (h : Host κ) (inputs : List (UInt64 × Input)) : Host κ :=
  inputs.foldl (fun h input => (h.handle keys input.1 input.2).1) h

/-! ## What one input can do -/

/-- Either nothing durable changes, or one decision of the actor is committed. -/
inductive Step (keys : HostKeys) (h : Host κ) (nowMs : UInt64) (input : Input) : Host κ → Prop
  | quiet (live : Option (ExecutionState κ))
      (hlive : live = none ∨ live = h.live ∨ live = some h.db.state) :
      Step keys h nowMs input { h with live := live }
  | commit {s next : ExecutionState κ} {change : Change κ} {result : Option ExecDeliveryRejection}
      {db : Db κ} (hlive : h.live = some s)
      (hdecide : Actor.handle keys h.db s nowMs input = .commit next change result)
      (hpersist : h.db.persistInTransaction s.version next change nowMs = .ok db) :
      Step keys h nowMs input ⟨db, some next, ⟨s, input, next⟩ :: h.journal⟩

theorem handle_step (keys : HostKeys) (h : Host κ) (nowMs : UInt64) (input : Input) :
    Step keys h nowMs input (h.handle keys nowMs input).1 := by
  have hsame : Step keys h nowMs input h := .quiet h.live (.inr (.inl rfl))
  have hother : ∀ s, h.live = some s →
      Step keys h nowMs input
        (h.perform nowMs input s (Actor.handle keys h.db s nowMs input)).1 := by
    intro s hlive
    unfold perform
    split
    · exact hsame
    · exact hsame
    · rename_i next change result hdecide
      split
      · rename_i db hpersist
        exact .commit hlive hdecide hpersist
      · exact .quiet _ (.inr (.inr rfl))
  unfold handle
  split
  · exact .quiet none (.inl rfl)
  · split
    · exact .quiet _ (.inr (.inr rfl))
    · exact hsame
  · split
    · exact hsame
    · rename_i s hlive
      exact hother s hlive

theorem handle_eq_perform {keys : HostKeys} {h : Host κ} {s : ExecutionState κ} {nowMs : UInt64}
    {input : Input} (hlive : h.live = some s) (hinput : input ≠ .crash)
    (hrestart : input ≠ .restart) :
    h.handle keys nowMs input =
      h.perform nowMs input s (Actor.handle keys h.db s nowMs input) := by
  unfold handle
  split
  · exact absurd rfl hinput
  · exact absurd rfl hrestart
  · rw [hlive]

end Host

end Arena0
