import Statechart.Chart.Basic
import Statechart.StateSet

/-!
Questions about the tree of a chart: what lies above a state, the innermost state above two,
what is active when given states are, and the orders in which states are left and entered.
-/

namespace Statechart.Chart

/-- The states above `s`, innermost first, as far as `steps` steps lead. -/
def climb (c : Chart) : (steps : Nat) → Nat → List Nat
  | 0, _ => []
  | steps + 1, s =>
    match c.parent s with
    | none => []
    | some p => p :: climb c steps p

/-- The states above `s`, innermost first. A parent is numbered before its children, so there
are at most `s` of them. -/
def ancestors (c : Chart) (s : Nat) : List Nat :=
  c.climb s s

/-- `s` and the states above it, innermost first. -/
def branch (c : Chart) (s : Nat) : List Nat :=
  s :: c.ancestors s

/-- Whether `s` lies properly below `a`. -/
def isDescendant (c : Chart) (s a : Nat) : Bool :=
  decide (a ∈ c.ancestors s)

/-- The innermost state that is `a` or above it and `b` or above it. -/
def lca (c : Chart) (a b : Nat) : Option Nat :=
  if a = b ∨ c.isDescendant b a then some a
  else if c.isDescendant a b then some b
  else
    let above := c.ancestors a
    (c.ancestors b).find? (fun s => decide (s ∈ above))

/-- Adds the states of a walk upward until one of `bounds` or one that is known. -/
def gather (bounds : StateSet) : List Nat → StateSet → StateSet
  | [], known => known
  | a :: above, known =>
    if a ∈ bounds ∨ a ∈ known then known else gather bounds above (known.insert a)

/-- `states` together with the states above them; a walk upward ends below the first of
`bounds`. -/
def closureBelow (c : Chart) (states : List Nat) (bounds : StateSet) : StateSet :=
  states.foldl (fun known s => gather bounds (c.ancestors s) (known.insert s)) ∅

/-- `states` together with all states above them. -/
def closure (c : Chart) (states : List Nat) : StateSet :=
  c.closureBelow states ∅

/-- Puts `x` before the first member that may not come before it. -/
def placeBy (before : Nat → Nat → Bool) (x : Nat) : List Nat → List Nat
  | [] => [x]
  | y :: rest => if before y x then y :: placeBy before x rest else x :: y :: rest

def sortBy (before : Nat → Nat → Bool) (xs : List Nat) : List Nat :=
  xs.foldr (placeBy before) []

/-- Outer states are entered before inner ones, and in document order among equals. -/
def entersBefore (c : Chart) (a b : Nat) : Bool :=
  decide ((c.node a).depth < (c.node b).depth) ||
    (decide ((c.node a).depth = (c.node b).depth) && decide (a < b))

def entryOrder (c : Chart) (states : List Nat) : List Nat :=
  sortBy c.entersBefore states

/-- States are left in the reverse of the order in which they are entered. -/
def exitOrder (c : Chart) (states : List Nat) : List Nat :=
  sortBy (fun a b => c.entersBefore b a) states

end Statechart.Chart
