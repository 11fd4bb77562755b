import Statechart.Session.Configuration
import Statechart.Session.Id
import Statechart.Datamodel.Scopes
import Statechart.Event

/-!
Sessions: everything that changes while a chart runs. A session has a scope for the variables
of the system, inside it one for the variables of the chart, and inside that one for every
state, nested as the states are; with a shared context the states have no scopes of their own.
-/

namespace Statechart

structure Session where
  id : SessionId
  configuration : Configuration
  /-- The configuration as it was last published. -/
  status : Status
  scopes : Scopes
  /-- The scope of each state that has one. -/
  homes : SortedMap Nat Nat
  histories : Histories
  /-- The states whose completion has been signalled. -/
  completed : StateSet
  /-- The running services of each state. -/
  invokes : SortedMap Nat (List String)
  /-- The states whose services are not started yet. -/
  pendingInvokes : StateSet
  /-- The internal events that wait, oldest first. -/
  internal : List Event
  running : Bool
  /-- The last number given out for a generated id. -/
  sequence : UInt64

namespace Session

/-- The scope of the system variables. -/
def systemScope : Nat := 0

/-- The scope of the variables of the chart. -/
def globalScope : Nat := 1

/-- Gives each of `states` a scope inside that of its parent. -/
def layOut (c : Chart) (states : List Nat) (laid : SortedMap Nat Nat × Scopes) :
    SortedMap Nat Nat × Scopes :=
  states.foldl
    (fun laid s =>
      let around := ((c.parent s).bind laid.1.get?).getD globalScope
      let (scope, scopes) := laid.2.create (some around)
      (laid.1.insert s scope, scopes))
    laid

/-- The scopes of the system and of the chart, without variables. -/
def ground : Scopes :=
  ((Scopes.empty.create none).2.create (some systemScope)).2

/-- A new session: nothing is active, no state has a scope, and no variable has a value. -/
def new (id : SessionId) : Session :=
  { id := id, configuration := .empty, status := .empty, scopes := ground, homes := ∅,
    histories := ∅, completed := ∅, invokes := ∅, pendingInvokes := ∅, internal := [],
    running := false, sequence := 0 }

/-- A session that is laid out and has not started: nothing is active, and of the variables only
those of the system have values. -/
def fresh (c : Chart) (shared : Bool) (id : SessionId) : Session :=
  let (homes, scopes) :=
    if shared then (∅, ground)
    else layOut c (c.states.filter (fun s => !c.isPseudo s)) (∅, ground)
  let scopes := scopes.setLocal systemScope SystemVariable.sessionId (.text id.render)
  let scopes := scopes.setLocal systemScope SystemVariable.name (.ofText? c.name)
  let scopes := scopes.setLocal systemScope SystemVariable.allStates (.list [])
  { new id with scopes := scopes, homes := homes }

/-- The scope in which the content of `s` runs: its own, or that of the next state around it
that has one. -/
def scopeOf (session : Session) (c : Chart) (s : Nat) : Nat :=
  ((c.branch s).findSome? session.homes.get?).getD globalScope

/-- What the content of `s` sees. -/
def view (session : Session) (c : Chart) (s : Nat) : View :=
  ⟨session.scopes, session.scopeOf c s⟩

/-- Appends an internal event. -/
def raise (session : Session) (e : Event) : Session :=
  { session with internal := session.internal ++ [e] }

/-- Binds the variable of the current event, or clears it for a step without event. -/
def bindEvent (session : Session) (event : Option Event) : Session :=
  { session with
    scopes := match event with
      | some e => session.scopes.setLocal systemScope SystemVariable.event e.toValue
      | none => session.scopes.removeLocal systemScope SystemVariable.event }

/-- Publishes the configuration: captures its status and sets the variable that lists the
active states. -/
def publish (session : Session) (c : Chart) : Session :=
  let status := Status.capture c session.configuration session.internal.length
  { session with
    status := status
    scopes := session.scopes.setLocal systemScope SystemVariable.allStates
      (.list ((c.idsOf status.all.members).map .text)) }

/-- Brings the number of waiting events in the status up to date. -/
def publishPending (session : Session) : Session :=
  { session with status := { session.status with pending := session.internal.length } }

/-- Counts up the number for generated ids. -/
def advance (session : Session) : Session :=
  { session with sequence := session.sequence + 1 }

/-- The id of a send that has none of its own and got the current number. -/
def sendId (session : Session) : String :=
  session.id.render ++ "-" ++ toString session.sequence.toNat

end Session

end Statechart
