import Statechart.Chart.Basic
import Statechart.Text.Blank

/-!
Outlines: a chart as it is written down, a tree of states that name each other by id.
-/

namespace Statechart

inductive Shape where
  /-- Compound with states inside, simple without. -/
  | plain
  | parallel
  | final
  deriving DecidableEq

/-- The entry that is taken when nothing else says where to go, with its content. Without
targets it goes where its owner goes anyway. -/
structure DefaultOutline where
  targets : List String
  actions : List Action

structure TransitionOutline where
  events : List String
  condition : Option String
  targets : List String
  kind : TransitionKind
  actions : List Action

structure HistoryOutline where
  id : Option String
  depth : HistoryDepth
  default : Option DefaultOutline

/-- All that is said about one state, apart from the states inside it. -/
structure StateHead where
  /-- A state without an id of its own gets one from its number. -/
  id : Option String
  shape : Shape
  initial : Option DefaultOutline
  histories : List HistoryOutline
  transitions : List TransitionOutline
  onEntry : List Action
  onExit : List Action
  data : List Data
  invokes : List Invoke

inductive StateOutline where
  | mk (head : StateHead) (children : List StateOutline)

structure Outline where
  name : Option String
  datamodel : Option String
  /-- The states to start in; without any, the first one. -/
  initial : List String
  states : List StateOutline
  data : List Data

/-- The names in attributes that may each hold several, separated by blanks. -/
def namesIn (attributes : List String) : List String :=
  attributes.flatMap Text.words

end Statechart
