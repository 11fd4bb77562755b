import Statechart.Json.Record
import Statechart.Json.Printer

/-!
Events: a name, a kind and an optional payload, with the ids of the send, the session and the
service they come from. An event is bound to a variable while it is processed, and it is
written into snapshots as a record.
-/

namespace Statechart

/-- What sort of happening an event stands for. A cancel event stops the session instead of
being matched against transitions. -/
inductive EventKind where
  | call | change | signal | time | error | cancel
  deriving DecidableEq

namespace EventKind

/-- The kinds in the order of their numbers. -/
def all : List EventKind := [call, change, signal, time, error, cancel]

def label : EventKind → String
  | call => "call"
  | change => "change"
  | signal => "signal"
  | time => "time"
  | error => "error"
  | cancel => "cancel"

/-- The name under which a kind is stored. -/
def storedName : EventKind → String
  | call => "Call"
  | change => "Change"
  | signal => "Signal"
  | time => "Time"
  | error => "Error"
  | cancel => "Cancel"

def ofStoredName? (name : String) : Option EventKind :=
  all.find? (fun kind => kind.storedName == name)

end EventKind

structure Event where
  name : String
  kind : EventKind
  sendId : Option String
  origin : Option String
  invokeId : Option String
  data : Option Json.Value

namespace Event

/-- An event of which only name and kind are known. -/
def plain (name : String) (kind : EventKind) : Event :=
  ⟨name, kind, none, none, none, none⟩

def signal (name : String) : Event :=
  plain name .signal

def error (name : String) : Event :=
  plain name .error

/-- Raised when content fails. -/
def errorExecution : String := "error.execution"

/-- Raised when an event cannot be sent. -/
def errorCommunication : String := "error.communication"

/-- The name of the event that reports the completion of the state `id`. -/
def doneName (id : String) : String :=
  "done.state." ++ id

def isError (e : Event) : Bool :=
  decide (e.kind = .error)

/-- The event as the value of the variable that holds it. -/
def toValue (e : Event) : Json.Value :=
  .ofMembers [
    ("name", .text e.name), ("type", .text e.kind.label), ("sendid", .ofText? e.sendId),
    ("origin", .ofText? e.origin), ("invokeid", .ofText? e.invokeId),
    ("data", e.data.getD .null)]

def display (e : Event) : String :=
  e.name ++ " (" ++ e.kind.label ++ ")"

/-- The fields of a stored event. -/
def fieldNames : List String :=
  ["name", "kind", "send_id", "origin", "invoke_id", "data"]

def textTree (s : String) : Json.Tree :=
  .text (Json.piecesOf s)

def optionTree {α : Type} (f : α → Json.Tree) : Option α → Json.Tree
  | some a => f a
  | none => .null

/-- The record of an event; what is missing is null. -/
def toTree (e : Event) : Json.Tree :=
  .object [
    (Json.piecesOf "name", textTree e.name),
    (Json.piecesOf "kind", textTree e.kind.storedName),
    (Json.piecesOf "send_id", optionTree textTree e.sendId),
    (Json.piecesOf "origin", optionTree textTree e.origin),
    (Json.piecesOf "invoke_id", optionTree textTree e.invokeId),
    (Json.piecesOf "data", optionTree Json.Value.toTree e.data)]

/-- Reads the record of an event. Only name and kind must be there. -/
def reader : Json.Reader Event := fun room tree =>
  if room = 0 then none
  else do
    let fields ← Json.Fields.ofTree? fieldNames tree
    let inside := room - 1
    let name ← fields.required? "name" .text inside
    let kind ← fields.required? "kind" (.name EventKind.ofStoredName?) inside
    let sendId ← fields.orElse? "send_id" none (.optional .text) inside
    let origin ← fields.orElse? "origin" none (.optional .text) inside
    let invokeId ← fields.orElse? "invoke_id" none (.optional .text) inside
    let data ← fields.orElse? "data" none (.optional .value) inside
    some ⟨name, kind, sendId, origin, invokeId, data⟩

def read (text : String) : Option Event :=
  (Json.Tree.read text).bind (reader Json.nestingLimit)

end Event

end Statechart
