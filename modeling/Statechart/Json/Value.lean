import Statechart.Json.Tree
import Statechart.SortedMap

/-!
JSON values: what variables hold and events carry. Numbers are integers or doubles, never
equal to each other; an object is its members in ascending order of the keys. A value is read
from a tree when every text in it is whole, every numeral stands for a number and containers
are nested at most `nestingLimit` deep.
-/

namespace Statechart.Json

inductive Value where
  | null
  | bool (value : Bool)
  | number (value : Number)
  | text (value : String)
  | list (items : List Value)
  /-- The members in strictly ascending order of their keys. -/
  | object (members : List (String × Value))

/-- How deep containers may be nested in a text that is read as a value. -/
def nestingLimit : Nat := 127

def Number.same : Number → Number → Bool
  | .int a, .int b => decide (a = b)
  | .float a, .float b => a == b
  | _, _ => false

/-- The number as a double: an integer becomes the nearest one. -/
def Number.toFloat : Number → Float
  | .int i => if 0 ≤ i then i.toNat.toUInt64.toFloat else -(i.natAbs.toUInt64.toFloat)
  | .float f => f

def Number.numeral : Number → Numeral
  | .int i => .ofInt i
  | .float f => .ofFloat f

namespace Value

instance : Inhabited Value := ⟨.null⟩

def int (i : Int) : Value := .number (.int i)

/-- A double as a value; infinities and undefined results become null. -/
def float (f : Float) : Value :=
  if f.isFinite then .number (.float f) else .null

/-- An object with these members: of two with one key the later counts. -/
def ofMembers (members : List (String × Value)) : Value :=
  .object (members.foldl (fun placed m => placeEntry m.1 m.2 placed) [])

def ofText? : Option String → Value
  | some s => .text s
  | none => .null

mutual
/-- Equality of values: integers by value, doubles as doubles, objects member by member. -/
def same : Value → Value → Bool
  | .null, .null => true
  | .bool a, .bool b => a == b
  | .number a, .number b => a.same b
  | .text a, .text b => decide (a = b)
  | .list xs, .list ys => sameItems xs ys
  | .object ms, .object ns => sameMembers ms ns
  | _, _ => false
def sameItems : List Value → List Value → Bool
  | [], [] => true
  | x :: xs, y :: ys => same x y && sameItems xs ys
  | _, _ => false
def sameMembers : List (String × Value) → List (String × Value) → Bool
  | [], [] => true
  | (j, x) :: ms, (k, y) :: ns => decide (j = k) && same x y && sameMembers ms ns
  | _, _ => false
end

mutual
def toTree : Value → Tree
  | .null => .null
  | .bool b => .bool b
  | .number n => .number n.numeral
  | .text s => .text (piecesOf s)
  | .list xs => .list (toTrees xs)
  | .object ms => .object (toMembers ms)
def toTrees : List Value → List Tree
  | [] => []
  | x :: xs => toTree x :: toTrees xs
def toMembers : List (String × Value) → List (List Piece × Tree)
  | [] => []
  | (k, x) :: ms => (piecesOf k, toTree x) :: toMembers ms
end

mutual
/-- The value of a tree in which at most `room` containers may be nested. -/
def ofTree? (room : Nat) : Tree → Option Value
  | .null => some .null
  | .bool b => some (.bool b)
  | .number n => n.number?.map .number
  | .text pieces => (textOf? pieces).map fun cs => .text (String.ofList cs)
  | .list xs => if room = 0 then none else (ofTrees? (room - 1) xs).map .list
  | .object ms => if room = 0 then none else (ofMembers? (room - 1) ms).map ofMembers
def ofTrees? (room : Nat) : List Tree → Option (List Value)
  | [] => some []
  | x :: xs => do
    let value ← ofTree? room x
    let values ← ofTrees? room xs
    some (value :: values)
def ofMembers? (room : Nat) : List (List Piece × Tree) → Option (List (String × Value))
  | [] => some []
  | (key, x) :: ms => do
    let cs ← textOf? key
    let value ← ofTree? room x
    let members ← ofMembers? room ms
    some ((String.ofList cs, value) :: members)
end

def read (text : String) : Option Value :=
  (Tree.read text).bind (ofTree? nestingLimit)

/-- The member of an object under `key`. -/
def get? (key : String) : Value → Option Value
  | .object members => findEntry key members
  | _ => none

end Value

end Statechart.Json
