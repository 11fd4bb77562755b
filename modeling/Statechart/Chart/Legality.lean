import Statechart.Chart.Ancestry
import Statechart.Report
import Statechart.SortedMap
import Statechart.Text.Quoted

/-!
Which states may be active together: of an active compound state exactly one child, of an
active parallel state all children, and of the top level at most one state.
-/

namespace Statechart

/-- A rule broken by a set of active states. -/
inductive Violation where
  | incompleteParallel (parallel : String) (active regions : Nat)
  | multipleActiveChildren (state : String) (children : List String)
  | multipleTopLevel (states : List String)
  deriving DecidableEq

namespace Violation

def message : Violation → String
  | incompleteParallel parallel active regions =>
    "Parallel state '" ++ parallel ++ "' has " ++ toString active ++ " of " ++
      toString regions ++ " regions active"
  | multipleActiveChildren state children =>
    "Compound state '" ++ state ++ "' has multiple active children: " ++ Text.quoteList children
  | multipleTopLevel states =>
    "Multiple top-level states are active: " ++ Text.quoteList states

/-- The state whose rule is broken, if it is the rule of one state. -/
def state? : Violation → Option String
  | incompleteParallel parallel _ _ => some parallel
  | multipleActiveChildren state _ => some state
  | multipleTopLevel _ => none

/-- The report of a violation, about the state whose rule is broken. -/
def report (v : Violation) : Report :=
  ⟨.illegalConfig, v.message, v.state?⟩

/-- The messages of several violations in one line. -/
def summary (violations : List Violation) : String :=
  "; ".intercalate (violations.map message)

end Violation

namespace Chart

/-- Notes the links of a walk upward from `child`: each state as a child of the next. -/
def noteLinks (child : Nat) : List Nat → SortedMap Nat StateSet → SortedMap Nat StateSet
  | [], known => known
  | p :: above, known =>
    noteLinks p above (known.insert p (((known.get? p).getD ∅).insert child))

/-- For every state above one of `states`, its children that are one of `states` or above
one. -/
def activeChildren (c : Chart) (states : List Nat) : SortedMap Nat StateSet :=
  states.foldl (fun known s => noteLinks s (c.ancestors s) known) ∅

/-- The outermost state above `s`, or `s` itself. -/
def root (c : Chart) (s : Nat) : Nat :=
  (c.ancestors s).getLast?.getD s

/-- The rule of one state that has the active children `children`. -/
def violation? (c : Chart) (s : Nat) (children : StateSet) : Option Violation :=
  if c.kind s = .parallel then
    let regions := (c.children s).length
    if children.size < regions then
      some (.incompleteParallel (c.idOf s) children.size regions)
    else none
  else if 1 < children.size then
    some (.multipleActiveChildren (c.idOf s) (c.idsOf children.members))
  else none

/-- The rules broken when of the states without children exactly `states` are active: those of
single states in document order, then that of the top level. -/
def violations (c : Chart) (states : StateSet) : List Violation :=
  let tops := StateSet.ofList (states.members.map c.root)
  (c.activeChildren states.members).entries.filterMap (fun e => c.violation? e.1 e.2) ++
    if 1 < tops.size then [.multipleTopLevel (c.idsOf tops.members)] else []

end Chart

end Statechart
