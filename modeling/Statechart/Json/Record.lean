import Statechart.Json.Value

/-!
Typed readers of trees. A record may be written as an object, where unknown keys are skipped
unread and a known key may stand only once, or as the list of its fields in order. `room` is
how many containers may still be nested.
-/

namespace Statechart.Json

/-- Reads a typed value off a tree. -/
abbrev Reader (α : Type) := (room : Nat) → Tree → Option α

namespace Reader

def text : Reader String := fun _ tree =>
  match tree with
  | .text pieces => (textOf? pieces).map String.ofList
  | _ => none

def bool : Reader Bool := fun _ tree =>
  match tree with
  | .bool b => some b
  | _ => none

/-- A nonnegative integer below `bound`. -/
def unsigned (bound : Nat) : Reader Nat := fun _ tree =>
  match tree with
  | .number n => n.unsigned? bound
  | _ => none

def value : Reader Value := Value.ofTree?

/-- Null, or what `reader` reads. -/
def optional {α : Type} (reader : Reader α) : Reader (Option α) := fun room tree =>
  match tree with
  | .null => some none
  | tree => (reader room tree).map some

def list {α : Type} (reader : Reader α) : Reader (List α) := fun room tree =>
  match tree with
  | .list items => if room = 0 then none else items.mapM (reader (room - 1))
  | _ => none

/-- An object whose keys are not fixed: of two members with one key the later counts. -/
def map {α : Type} (reader : Reader α) : Reader (SortedMap String α) := fun room tree =>
  match tree with
  | .object members =>
    if room = 0 then none
    else do
      let entries ← members.mapM fun m => do
        let key ← textOf? m.1
        let value ← reader (room - 1) m.2
        some (String.ofList key, value)
      some (SortedMap.ofList entries)
  | _ => none

/-- One of a fixed set of names, found by `find`. Such a name may also be written as an object
with the name as its only key, bound to null. -/
def name {α : Type} (find : String → Option α) : Reader α := fun room tree =>
  match tree with
  | .text pieces => (textOf? pieces).bind fun cs => find (String.ofList cs)
  | .object [(pieces, .null)] =>
    if room = 0 then none else (textOf? pieces).bind fun cs => find (String.ofList cs)
  | _ => none

end Reader

/-- The fields of a record that are written, by name. -/
abbrev Fields := List (String × Tree)

/-- The members of an object that are named in `names`; `none` if one stands there twice. -/
def Fields.ofMembers? (names : List String) : List (List Piece × Tree) → Option Fields
  | [] => some []
  | (pieces, tree) :: ms => do
    let key := String.ofList (← textOf? pieces)
    let fields ← ofMembers? names ms
    if key ∈ names then
      if fields.any (fun f => decide (f.1 = key)) then none else some ((key, tree) :: fields)
    else some fields

/-- The fields of a record with the fields `names`; as a list it may not be longer than
`names`. -/
def Fields.ofTree? (names : List String) : Tree → Option Fields
  | .object members => ofMembers? names members
  | .list items => if items.length ≤ names.length then some (names.zip items) else none
  | _ => none

/-- Reads a field that must be there. -/
def Fields.required? {α : Type} (fields : Fields) (name : String) (reader : Reader α)
    (room : Nat) : Option α :=
  (findEntry name fields).bind (reader room)

/-- Reads a field, or takes `default` when it is not there. -/
def Fields.orElse? {α : Type} (fields : Fields) (name : String) (default : α)
    (reader : Reader α) (room : Nat) : Option α :=
  match findEntry name fields with
  | some tree => reader room tree
  | none => some default

end Statechart.Json
