import Statechart.Json.Value

/-!
Executable content: what a chart does when it enters a state, leaves it or takes a transition,
and the variables and services that a state declares.
-/

namespace Statechart

/-- A named value passed along with a send or an invoke. Without an expression it is read
from the variable `location`. -/
structure Param where
  name : String
  expr : Option String
  location : Option String
  deriving DecidableEq

/-- The content of a send. The event is named outright or by an expression; the payload is the
value of `content`, or an object of the listed variables and the parameters. -/
structure Send where
  id : Option String
  event : Option String
  eventExpr : Option String
  target : Option String
  targetType : Option String
  /-- How long to hold the event back, in milliseconds. -/
  delay : Option Nat
  names : List String
  params : List Param
  content : Option String
  deriving DecidableEq

/-- The target of a send that raises an event in the sender's own internal queue. -/
def Send.internalTarget : String := "#_internal"

mutual
inductive Action where
  /-- Gives a variable that exists a new value. -/
  | assign (location expr : String)
  /-- Declares a variable in the scope of the state; without an expression it is null. -/
  | declare (name : String) (expr : Option String)
  | log (label expr : Option String)
  | raise (event : String)
  | send (send : Send)
  | cancel (sendId : String)
  /-- Runs the first branch whose condition holds, or else `otherwise`. -/
  | choose (branches : List Branch) (otherwise : List Action)
inductive Branch where
  | mk (condition : String) (actions : List Action)
end

/-- The declaration of a variable. An expression wins over a value; without either the variable
starts as null. -/
structure Data where
  id : String
  expr : Option String
  value : Option Json.Value

/-- A service that runs while a state is active. -/
structure Invoke where
  id : Option String
  kind : String
  src : Option String
  params : List Param
  deriving DecidableEq

end Statechart
