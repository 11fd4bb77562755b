import Statechart.Host.Basic

/-!
A host that delivers what a session sends back to the session itself. Sends without delay
arrive at once; delayed ones wait until they are taken back. Every waiting send has a timer
under its send id, and a later send with the same id takes the timer over.
-/

namespace Statechart

/-- A delayed send. -/
structure Waiting where
  sendId : String
  event : Event
  cancelled : Bool

structure Loopback where
  /-- The delayed sends, oldest first, those taken back among them. -/
  waiting : List Waiting
  /-- For every running timer the position of its send among `waiting`. -/
  timers : SortedMap String Nat

namespace Loopback

def empty : Loopback := ⟨[], ∅⟩

/-- The target by which a session addresses itself. -/
def sessionTarget : String := "#_scxml_session"

/-- The number of running timers. -/
def pendingTimers (l : Loopback) : Nat :=
  l.timers.size

/-- The events that will still be delivered once their delays are over. -/
def undelivered (l : Loopback) : List Event :=
  (l.waiting.filter (fun w => !w.cancelled)).map Waiting.event

/-- Why a send cannot be looped back: it is of a foreign type, or for someone else. -/
def refusal? (request : SendRequest) : Option DispatchError :=
  match request.targetType.filter (fun t => t != "scxml") with
  | some targetType => some (.unsupportedTargetType targetType)
  | none =>
    (request.target.filter (fun t => t != "" && t != sessionTarget)).map .unsupportedTarget

def send (request : SendRequest) (l : Loopback) : Reply DispatchError × Loopback :=
  match refusal? request with
  | some reason => (.refuse reason, l)
  | none =>
    if request.delay = 0 then (⟨none, [request.toEvent]⟩, l)
    else
      (.accept,
        ⟨l.waiting ++ [⟨request.sendId, request.toEvent, false⟩],
          l.timers.insert request.sendId l.waiting.length⟩)

/-- Stops the timer under `sendId` and takes its send back. -/
def cancel (sendId : String) (l : Loopback) : Loopback :=
  match l.timers.get? sendId with
  | none => l
  | some position =>
    ⟨l.waiting.modify position (fun w => { w with cancelled := true }),
      l.timers.erase sendId⟩

end Loopback

/-- The loopback host; services are refused as `refusals` says. -/
def Host.loopback (refusals : Refusals) : Host Loopback :=
  { Host.refusing refusals with
    send := Loopback.send
    cancelSend := fun sendId l => (.accept, l.cancel sendId) }

end Statechart
