import Statechart.Chart.Legality
import Statechart.Session.Basic
import Statechart.Snapshot.Timestamp

/-!
Snapshots: the state of a session by ids, apart from the chart it runs. A snapshot can be kept
outside and loaded into another session of the same chart.
-/

namespace Statechart

/-- How a snapshot is told from others. -/
structure Stamp where
  id : String
  timestamp : Timestamp

structure Snapshot where
  version : UInt32
  stamp : Stamp
  /-- The name of the chart. -/
  chart : Option String
  sessionId : String
  running : Bool
  /-- The ids of all active states, in document order. -/
  active : List String
  histories : SortedMap String (List String)
  completed : List String
  invokes : SortedMap String (List String)
  pendingInvokes : List String
  /-- The variables of the chart. -/
  global : Vars
  /-- The variables of each state that has any. -/
  contexts : SortedMap String Vars
  internalEvents : List Event
  sequence : UInt64

/-- Why no session comes out of a snapshot. -/
inductive SnapshotError where
  | unreadable
  | unsupportedVersion (found : UInt32)
  | unknownState (id : String)
  | pseudoState (id : String)
  /-- The active states are not exactly the active states without children and those above
  them. -/
  | notClosed
  | illegal (violations : List Violation)
  | invalidSessionId
  | configuration (error : ConfigurationError)
  deriving DecidableEq

namespace Snapshot

/-- The version of the snapshots that are written and the only one that is read. -/
def currentVersion : UInt32 := 1

end Snapshot

namespace SnapshotError

/-- What is wrong with a snapshot whose ids are all known. -/
def defect : SnapshotError → String
  | pseudoState id => "pseudo-state '" ++ id ++ "' cannot be active"
  | notClosed => "active states are not the ancestor closure of the active atomic states"
  | illegal violations => Violation.summary violations
  | invalidSessionId => "invalid session id"
  | configuration error => error.message
  | _ => ""

def message : SnapshotError → String
  | unreadable => "Deserialization failed"
  | unsupportedVersion found =>
    "Unsupported checkpoint version " ++ toString found.toNat ++ ", supported: " ++
      toString Snapshot.currentVersion.toNat
  | unknownState id => "Snapshot refers to unknown state '" ++ id ++ "'"
  | e => "Checkpoint validation failed: " ++ e.defect

end SnapshotError

/-- The entries of a map with state numbers as keys, by ids. -/
def Chart.keyedById {α : Type} (c : Chart) (entries : List (Nat × α)) : SortedMap String α :=
  .ofList (entries.map (fun e => (c.idOf e.1, e.2)))

/-- The snapshot of a session of the chart `c`. -/
def Session.snapshot (session : Session) (c : Chart) (stamp : Stamp) : Snapshot where
  version := Snapshot.currentVersion
  stamp := stamp
  chart := c.name
  sessionId := session.id.render
  running := session.running
  active := c.idsOf session.configuration.active.members
  histories := c.keyedById
    (session.histories.entries.map (fun e => (e.1, c.idsOf e.2.members)))
  completed := c.idsOf session.completed.members
  invokes := c.keyedById session.invokes.entries
  pendingInvokes := c.idsOf session.pendingInvokes.members
  global := session.scopes.vars Session.globalScope
  contexts := c.keyedById
    ((session.homes.entries.map (fun e => (e.1, session.scopes.vars e.2))).filter
      (fun e => !e.2.isEmpty))
  internalEvents := session.internal
  sequence := session.sequence

namespace Snapshot

def checkVersion (snap : Snapshot) : Except SnapshotError Unit :=
  if snap.version = currentVersion then .ok () else .error (.unsupportedVersion snap.version)

end Snapshot

end Statechart
