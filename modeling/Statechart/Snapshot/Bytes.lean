import Statechart.Snapshot.Basic
import Statechart.Json.Printer

/-!
Snapshots as bytes: the parts of a snapshot one after the other, without names. Numbers have a
fixed width, least significant byte first; a text, a list or a map has its length in front, as
a number of eight bytes; an optional part has a byte in front that says whether it is there.
Values are stored as their compact JSON texts, and timestamps as texts.
-/

namespace Statechart.Snapshot

abbrev Bytes := List UInt8

/-- `width` bytes of `n`, least significant first. -/
def putNumber : (width : Nat) → Nat → Bytes
  | 0, _ => []
  | width + 1, n => UInt8.ofNat (n % 256) :: putNumber width (n / 256)

def putText (s : String) : Bytes :=
  let bytes := s.toUTF8.toList
  putNumber 8 bytes.length ++ bytes

def putBool (b : Bool) : Bytes :=
  [if b then 1 else 0]

def putOption {α : Type} (f : α → Bytes) : Option α → Bytes
  | none => [0]
  | some a => 1 :: f a

def putList {α : Type} (f : α → Bytes) (xs : List α) : Bytes :=
  putNumber 8 xs.length ++ xs.flatMap f

def putMap {α : Type} (f : α → Bytes) (m : SortedMap String α) : Bytes :=
  putList (fun e => putText e.1 ++ f e.2) m.entries

def putValue (v : Json.Value) : Bytes :=
  putText v.compact

/-- The number of a kind is its place among all kinds. -/
def putKind (kind : EventKind) : Bytes :=
  putNumber 4 (EventKind.all.idxOf kind)

def putEvent (e : Event) : Bytes :=
  putText e.name ++ putKind e.kind ++ putOption putText e.sendId ++ putOption putText e.origin ++
    putOption putText e.invokeId ++ putOption putValue e.data

def toBytes (snap : Snapshot) : Bytes :=
  putNumber 4 snap.version.toNat ++ putText snap.stamp.id ++
    putText snap.stamp.timestamp.render ++ putOption putText snap.chart ++
    putText snap.sessionId ++ putBool snap.running ++ putList putText snap.active ++
    putMap (putList putText) snap.histories ++ putList putText snap.completed ++
    putMap (putList putText) snap.invokes ++ putList putText snap.pendingInvokes ++
    putMap putValue snap.global ++ putMap (putMap putValue) snap.contexts ++
    putList putEvent snap.internalEvents ++ putNumber 8 snap.sequence.toNat

/-- Reads a part off the front of some bytes and returns it with the rest. -/
abbrev Taker (α : Type) := Bytes → Option (α × Bytes)

def takeNumber : (width : Nat) → Taker Nat
  | 0, bytes => some (0, bytes)
  | width + 1, bytes =>
    match bytes with
    | [] => none
    | b :: rest => (takeNumber width rest).map fun (n, rest) => (b.toNat + 256 * n, rest)

/-- Takes exactly `count` bytes. -/
def takeBytes (count : Nat) : Taker Bytes := fun bytes =>
  let taken := bytes.take count
  if taken.length = count then some (taken, bytes.drop count) else none

def takeText : Taker String := fun bytes => do
  let (length, rest) ← takeNumber 8 bytes
  let (text, rest) ← takeBytes length rest
  let s ← String.fromUTF8? (ByteArray.mk text.toArray)
  some (s, rest)

def takeBool : Taker Bool
  | [] => none
  | b :: rest => if b = 0 then some (false, rest) else if b = 1 then some (true, rest) else none

def takeOption {α : Type} (take : Taker α) : Taker (Option α)
  | [] => none
  | b :: rest =>
    if b = 0 then some (none, rest)
    else if b = 1 then (take rest).map fun (a, rest) => (some a, rest)
    else none

def takeMany {α : Type} (take : Taker α) : (count : Nat) → Taker (List α)
  | 0, bytes => some ([], bytes)
  | count + 1, bytes => do
    let (a, rest) ← take bytes
    let (others, rest) ← takeMany take count rest
    some (a :: others, rest)

def takeList {α : Type} (take : Taker α) : Taker (List α) := fun bytes => do
  let (count, rest) ← takeNumber 8 bytes
  takeMany take count rest

/-- Of two entries with one key the later counts. -/
def takeMap {α : Type} (take : Taker α) : Taker (SortedMap String α) := fun bytes => do
  let entry : Taker (String × α) := fun bytes => do
    let (key, rest) ← takeText bytes
    let (value, rest) ← take rest
    some ((key, value), rest)
  let (entries, rest) ← takeList entry bytes
  some (SortedMap.ofList entries, rest)

def takeValue : Taker Json.Value := fun bytes => do
  let (text, rest) ← takeText bytes
  let value ← Json.Value.read text
  some (value, rest)

def takeTimestamp : Taker Timestamp := fun bytes => do
  let (text, rest) ← takeText bytes
  let timestamp ← Timestamp.parse? text
  some (timestamp, rest)

def takeKind : Taker EventKind := fun bytes => do
  let (number, rest) ← takeNumber 4 bytes
  let kind ← EventKind.all[number]?
  some (kind, rest)

def takeEvent : Taker Event := fun bytes => do
  let (name, rest) ← takeText bytes
  let (kind, rest) ← takeKind rest
  let (sendId, rest) ← takeOption takeText rest
  let (origin, rest) ← takeOption takeText rest
  let (invokeId, rest) ← takeOption takeText rest
  let (data, rest) ← takeOption takeValue rest
  some (⟨name, kind, sendId, origin, invokeId, data⟩, rest)

def take : Taker Snapshot := fun bytes => do
  let (version, rest) ← takeNumber 4 bytes
  let (id, rest) ← takeText rest
  let (timestamp, rest) ← takeTimestamp rest
  let (chart, rest) ← takeOption takeText rest
  let (sessionId, rest) ← takeText rest
  let (running, rest) ← takeBool rest
  let (active, rest) ← takeList takeText rest
  let (histories, rest) ← takeMap (takeList takeText) rest
  let (completed, rest) ← takeList takeText rest
  let (invokes, rest) ← takeMap (takeList takeText) rest
  let (pendingInvokes, rest) ← takeList takeText rest
  let (global, rest) ← takeMap takeValue rest
  let (contexts, rest) ← takeMap (takeMap takeValue) rest
  let (internalEvents, rest) ← takeList takeEvent rest
  let (sequence, rest) ← takeNumber 8 rest
  some
    ({ version := .ofNat version, stamp := ⟨id, timestamp⟩, chart := chart,
       sessionId := sessionId, running := running, active := active, histories := histories,
       completed := completed, invokes := invokes, pendingInvokes := pendingInvokes,
       global := global, contexts := contexts, internalEvents := internalEvents,
       sequence := .ofNat sequence }, rest)

/-- Reads a snapshot; bytes after its end are ignored. -/
def ofBytes (bytes : Bytes) : Except SnapshotError Snapshot :=
  match take bytes with
  | none => .error .unreadable
  | some (snap, _) => snap.checkVersion.map (fun _ => snap)

end Statechart.Snapshot
