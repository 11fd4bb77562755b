import Statechart.Event

/-!
Hosts: the world around a session. An interpreter never delivers events or runs services
itself; it asks its host, which answers from a state of its own.
-/

namespace Statechart

/-- An event that leaves the session. -/
structure SendRequest where
  sendId : String
  event : String
  target : Option String
  targetType : Option String
  data : Option Json.Value
  /-- How long to hold the event back, in milliseconds. -/
  delay : Nat
  /-- The id of the sending session. -/
  origin : String

/-- The event that a send delivers. -/
def SendRequest.toEvent (r : SendRequest) : Event :=
  { Event.signal r.event with sendId := some r.sendId, origin := some r.origin, data := r.data }

inductive DispatchError where
  | unsupportedTarget (target : String)
  | unsupportedTargetType (targetType : String)
  deriving DecidableEq

def DispatchError.message : DispatchError → String
  | unsupportedTarget target => "Unsupported send target '" ++ target ++ "'"
  | unsupportedTargetType targetType => "Unsupported send target type '" ++ targetType ++ "'"

/-- A service to start for the state with the id `state`. -/
structure InvokeRequest where
  invokeId : String
  state : String
  kind : String
  src : Option String
  params : SortedMap String Json.Value

inductive InvokeError where
  | unknownType (kind : String)
  | failed (invokeId message : String)
  deriving DecidableEq

def InvokeError.message : InvokeError → String
  | unknownType kind => "No invoker registered for type '" ++ kind ++ "'"
  | failed invokeId message => "Invoke '" ++ invokeId ++ "' failed: " ++ message

/-- The answer of a host: why it refuses, if it does, and the events that have meanwhile come
in for the session from outside. -/
structure Reply (ε : Type) where
  refusal : Option ε
  arrivals : List Event

def Reply.accept {ε : Type} : Reply ε := ⟨none, []⟩

def Reply.refuse {ε : Type} (reason : ε) : Reply ε := ⟨some reason, []⟩

/-- A host with states of the type `σ`. -/
structure Host (σ : Type) where
  send : SendRequest → σ → Reply DispatchError × σ
  /-- Takes back a delayed send. -/
  cancelSend : (sendId : String) → σ → Reply Empty × σ
  startInvoke : InvokeRequest → σ → Reply InvokeError × σ
  cancelInvoke : (invokeId : String) → σ → Reply InvokeError × σ

/-- What a host refuses, by request. -/
structure Refusals where
  send : SendRequest → Option DispatchError
  startInvoke : InvokeRequest → Option InvokeError
  cancelInvoke : (invokeId : String) → Option InvokeError

def Refusals.none : Refusals :=
  ⟨fun _ => .none, fun _ => .none, fun _ => .none⟩

namespace Host

/-- A host that does nothing but refuse what it must. -/
def refusing {σ : Type} (refusals : Refusals) : Host σ where
  send request world := (⟨refusals.send request, []⟩, world)
  cancelSend _ world := (.accept, world)
  startInvoke request world := (⟨refusals.startInvoke request, []⟩, world)
  cancelInvoke invokeId world := (⟨refusals.cancelInvoke invokeId, []⟩, world)

/-- A host that accepts everything and does nothing. -/
def silent {σ : Type} : Host σ :=
  refusing .none

end Host

end Statechart
