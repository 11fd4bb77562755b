import Statechart.Snapshot.Basic

/-!
Snapshots as JSON texts: a record with one field for each part of a snapshot, on indented
lines.
-/

namespace Statechart.Snapshot

open Json (Tree)

def textTree (s : String) : Tree :=
  .text (Json.piecesOf s)

def textsTree (texts : List String) : Tree :=
  .list (texts.map textTree)

/-- A map as an object, its values written by `f`. -/
def mapTree {α : Type} (f : α → Tree) (m : SortedMap String α) : Tree :=
  .object (m.entries.map (fun e => (Json.piecesOf e.1, f e.2)))

def varsTree (vars : Vars) : Tree :=
  mapTree Json.Value.toTree vars

/-- The fields of a snapshot, in the order in which they are written. -/
def fieldNames : List String :=
  ["version", "id", "timestamp", "document", "session_id", "running", "active", "histories",
    "completed", "invokes", "pending_invokes", "global", "contexts", "internal_events",
    "sequence"]

/-- The contents of the fields, in their order. -/
def fieldTrees (snap : Snapshot) : List Tree :=
  [.number (.ofNat snap.version.toNat), textTree snap.stamp.id,
    textTree snap.stamp.timestamp.render,
    (match snap.chart with
      | some name => textTree name
      | none => .null),
    textTree snap.sessionId, .bool snap.running, textsTree snap.active,
    mapTree textsTree snap.histories, textsTree snap.completed,
    mapTree textsTree snap.invokes, textsTree snap.pendingInvokes, varsTree snap.global,
    mapTree varsTree snap.contexts, .list (snap.internalEvents.map Event.toTree),
    .number (.ofNat snap.sequence.toNat)]

def toTree (snap : Snapshot) : Tree :=
  .object ((fieldNames.map Json.piecesOf).zip snap.fieldTrees)

def toJson (snap : Snapshot) : String :=
  snap.toTree.indented

/-- Reads a text that is the rendering of a point in time. -/
def timestampReader : Json.Reader Timestamp := fun room tree =>
  (Json.Reader.text room tree).bind Timestamp.parse?

/-- Reads the record of a snapshot. Of the fields only the name of the chart may be left
out, and not in a record that is written as a list. -/
def reader : Json.Reader Snapshot := fun room tree =>
  if room = 0 then none
  else do
    let inside := room - 1
    let texts := Json.Reader.list Json.Reader.text
    let vars := Json.Reader.map Json.Reader.value
    let fields ← Json.Fields.ofTree? fieldNames tree
    let version ← fields.required? "version" (.unsigned UInt32.size) inside
    let id ← fields.required? "id" .text inside
    let timestamp ← fields.required? "timestamp" timestampReader inside
    let chart ← fields.orElse? "document" none (.optional .text) inside
    let sessionId ← fields.required? "session_id" .text inside
    let running ← fields.required? "running" .bool inside
    let active ← fields.required? "active" texts inside
    let histories ← fields.required? "histories" (.map texts) inside
    let completed ← fields.required? "completed" texts inside
    let invokes ← fields.required? "invokes" (.map texts) inside
    let pendingInvokes ← fields.required? "pending_invokes" texts inside
    let global ← fields.required? "global" vars inside
    let contexts ← fields.required? "contexts" (.map vars) inside
    let internalEvents ← fields.required? "internal_events" (.list Event.reader) inside
    let sequence ← fields.required? "sequence" (.unsigned UInt64.size) inside
    some
      { version := .ofNat version, stamp := ⟨id, timestamp⟩, chart := chart,
        sessionId := sessionId, running := running, active := active, histories := histories,
        completed := completed, invokes := invokes, pendingInvokes := pendingInvokes,
        global := global, contexts := contexts, internalEvents := internalEvents,
        sequence := .ofNat sequence }

def ofJson (text : String) : Except SnapshotError Snapshot :=
  match (Json.Tree.read text).bind (reader Json.nestingLimit) with
  | none => .error .unreadable
  | some snap => snap.checkVersion.map (fun _ => snap)

end Statechart.Snapshot
