import Statechart.Datamodel.Scopes
import Statechart.Text.Blank

/-!
Evaluators give expressions and conditions their meaning. The interpreter knows expressions
only as text and leaves them to the evaluator it is given.
-/

namespace Statechart

inductive EvaluationError where
  | unsupported (expr datamodel : String)
  | failed (expr message : String)
  | notBoolean (expr : String)
  deriving DecidableEq

def EvaluationError.message : EvaluationError → String
  | unsupported expr datamodel =>
    "Expression '" ++ expr ++ "' is not supported by the '" ++ datamodel ++ "' datamodel"
  | failed expr message => "Failed to evaluate '" ++ expr ++ "': " ++ message
  | notBoolean expr => "Expression '" ++ expr ++ "' did not produce a boolean"

/-- An evaluator is only ever read: its answers depend on what the expression sees and on its
text, and on nothing that happened before. A host is different, since it answers from a state
of its own. -/
structure Evaluator where
  /-- The datamodel whose expressions are understood. -/
  datamodel : String
  /-- Whether all states share the global scope instead of having one each. -/
  sharesContext : Bool
  eval : View → String → Except EvaluationError Json.Value
  holds : View → String → Except EvaluationError Bool

/-- Whether `id` is among the ids of the active states, as far as the view can tell. -/
def View.isMember (v : View) (id : String) : Bool :=
  match v.get? SystemVariable.allStates with
  | some (.list states) => states.any fun s =>
    match s with
    | .text t => decide (t = id)
    | _ => false
  | _ => false

/-- `cs` without `last` at its end, if that is where it ends. -/
def dropLast? (last : Char) (cs : List Char) : Option (List Char) :=
  if cs.getLast? = some last then some cs.dropLast else none

/-- `cs` without `quote` at both ends, if it stands at both. -/
def unquote? (quote : Char) : List Char → Option (List Char)
  | [] => none
  | c :: rest => if c = quote then dropLast? quote rest else none

/-- The id that a predicate asks about: `In(id)`, with or without quotation marks of either
kind around the id and blanks around the whole and the id. -/
def membershipOf? (expr : List Char) : Option (List Char) :=
  match Text.trimBlanks expr with
  | 'I' :: 'n' :: '(' :: rest =>
    (dropLast? ')' rest).map fun inner =>
      let inner := Text.trimBlanks inner
      ((unquote? '\'' inner).or (unquote? '"' inner)).getD inner
  | _ => none

/-- The id that the text `expr` asks about, if it is an `In` predicate. -/
def membershipIn? (expr : String) : Option String :=
  (membershipOf? expr.toList).map String.ofList

namespace Evaluator

/-- The datamodel without variables: an expression is its own text, and a condition is true,
false or an `In` predicate. -/
def minimal : Evaluator where
  datamodel := "null"
  sharesContext := false
  eval _ expr := .ok (.text expr)
  holds view expr :=
    match Text.trim expr with
    | "true" => .ok true
    | "false" => .ok false
    | trimmed =>
      match membershipIn? trimmed with
      | some id => .ok (view.isMember id)
      | none => .error (.unsupported expr "null")

end Evaluator

end Statechart
