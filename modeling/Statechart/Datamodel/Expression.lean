import Statechart.Datamodel.Evaluator
import Statechart.Json.Printer

/-!
A small expression language over JSON values: variables, literals, comparisons, sums,
negation and the `In` predicate. Reading an expression never fails: a text that is nothing
else is the name of a variable. An operator splits a text at its first occurrence, and the
operators are looked for in a fixed order, so comparisons bind weaker than sums.
-/

namespace Statechart

inductive Operator where
  | equal | notEqual | less | greater | plus
  deriving DecidableEq

namespace Operator

/-- The operators in the order in which they are looked for. -/
def all : List Operator := [equal, notEqual, less, greater, plus]

/-- An operator as it is written, with the blanks around it. -/
def spelling : Operator → List Char
  | equal => [' ', '=', '=', ' ']
  | notEqual => [' ', '!', '=', ' ']
  | less => [' ', '<', ' ']
  | greater => [' ', '>', ' ']
  | plus => [' ', '+', ' ']

end Operator

inductive Expression where
  | membership (id : String)
  /-- Two operands, and the text of the whole. -/
  | binary (text : String) (op : Operator) (left right : Expression)
  /-- A negated operand and its text. -/
  | negation (operandText : String) (operand : Expression)
  | literal (value : Json.Value)
  /-- The variable with this name. -/
  | named (name : String)

/-- What stands before and after the first occurrence of `mark`. -/
def splitAtFirst? (mark : List Char) : List Char → Option (List Char × List Char)
  | [] => none
  | c :: rest =>
    if mark.isPrefixOf (c :: rest) then some ([], (c :: rest).drop mark.length)
    else (splitAtFirst? mark rest).map (fun parts => (c :: parts.1, parts.2))

namespace Expression

/-- The first operator that occurs in a text, with what stands before and after it. -/
def split? (cs : List Char) : Option (Operator × List Char × List Char) :=
  Operator.all.findSome? fun op => (splitAtFirst? op.spelling cs).map (fun parts => (op, parts))

/-- Reads a text that is no operation: a quoted text, a JSON value or a variable. -/
def atom (cs : List Char) : Expression :=
  match unquote? '\'' cs with
  | some inner => .literal (.text (String.ofList inner))
  | none =>
    match Json.Value.read (String.ofList cs) with
    | some value => .literal value
    | none => .named (String.ofList cs)

/-- Reads a text shorter than `bound`. -/
def parseWithin : (bound : Nat) → List Char → Expression
  | 0, cs => .named (String.ofList cs)
  | bound + 1, text =>
    let cs := Text.trimBlanks text
    match membershipOf? cs with
    | some id => .membership (String.ofList id)
    | none =>
      match split? cs with
      | some (op, left, right) =>
        .binary (String.ofList cs) op (parseWithin bound left) (parseWithin bound right)
      | none =>
        match cs with
        | '!' :: operand => .negation (String.ofList operand) (parseWithin bound operand)
        | _ => atom cs

def parse (text : String) : Expression :=
  parseWithin (text.length + 1) text.toList

/-- The number that `value` is; `text` is the expression that asks for it. -/
def numberIn (text : String) : Json.Value → Except EvaluationError Json.Number
  | .number n => .ok n
  | value => .error (.failed text (value.compact ++ " is not a number"))

/-- Whether an integer fits 64 bits with a sign. -/
def isSmall (i : Int) : Bool :=
  decide (Int64.minValue.toInt ≤ i ∧ i ≤ Int64.maxValue.toInt)

/-- The sum of two numbers: an integer, wrapped to 64 bits, if both are integers with a sign,
and else a double. -/
def add (a b : Json.Number) : Json.Value :=
  match a, b with
  | .int i, .int j =>
    if isSmall i && isSmall j then .int (Int.bmod (i + j) UInt64.size)
    else .float (a.toFloat + b.toFloat)
  | _, _ => .float (a.toFloat + b.toFloat)

/-- Applies an operator; `text` is the whole expression. -/
def apply (text : String) (op : Operator) (left right : Json.Value) :
    Except EvaluationError Json.Value :=
  match op with
  | .equal => .ok (.bool (left.same right))
  | .notEqual => .ok (.bool (!left.same right))
  | .less => do
    let a ← numberIn text left
    let b ← numberIn text right
    .ok (.bool (decide (a.toFloat < b.toFloat)))
  | .greater => do
    let a ← numberIn text left
    let b ← numberIn text right
    .ok (.bool (decide (b.toFloat < a.toFloat)))
  | .plus => do
    let a ← numberIn text left
    let b ← numberIn text right
    .ok (add a b)

def eval (view : View) : Expression → Except EvaluationError Json.Value
  | membership id => .ok (.bool (view.isMember id))
  | binary text op left right => do
    let a ← eval view left
    let b ← eval view right
    apply text op a b
  | negation operandText operand => do
    match ← eval view operand with
    | .bool b => .ok (.bool !b)
    | _ => .error (.notBoolean operandText)
  | literal value => .ok value
  | named name =>
    match view.get? name with
    | some value => .ok value
    | none => .error (.failed name "undefined variable")

end Expression

/-- The evaluator of the expression language. -/
def Evaluator.expression (sharesContext : Bool) : Evaluator where
  datamodel := "expr"
  sharesContext := sharesContext
  eval view text := (Expression.parse text).eval view
  holds view text :=
    match (Expression.parse text).eval view with
    | .ok (.bool verdict) => .ok verdict
    | .ok _ => .error (.notBoolean text)
    | .error e => .error e

end Statechart
