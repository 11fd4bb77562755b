import Statechart.Chart.Content

/-!
Charts: states numbered in document order, and transitions numbered in the order of their
sources. A state is named by an id of its own and known to the interpreter by its number. The
default entries of compound states and the memories of histories are nodes too, numbered after
the children of the state they belong to; they are never active.
-/

namespace Statechart

/-- How much a history remembers: the active children of its parent, or the active states
without children anywhere below it. -/
inductive HistoryDepth where
  | shallow | deep
  deriving DecidableEq

inductive NodeKind where
  /-- A state without children. -/
  | simple
  /-- A state of whose children exactly one is active. -/
  | compound
  /-- A state whose children are all active. -/
  | parallel
  | final
  /-- The default entry of a compound state. -/
  | initial
  | history (depth : HistoryDepth)
  deriving DecidableEq

namespace NodeKind

def isPseudo : NodeKind → Bool
  | .initial | .history _ => true
  | _ => false

def isAtomic : NodeKind → Bool
  | .simple | .final => true
  | _ => false

end NodeKind

inductive TransitionKind where
  | external
  /-- Does not leave its source when that is compound and holds every target. -/
  | internal
  deriving DecidableEq

/-- A transition does not hold its own number, which is its position among the transitions of
the chart. -/
structure Transition where
  source : Nat
  /-- The events that trigger the transition; none for one that is taken without an event. -/
  events : List String
  condition : Option String
  targets : List Nat
  kind : TransitionKind
  actions : List Action

/-- Whether an event descriptor names the event `name`: it is the name, or the star that stands
for every name. -/
def descriptorMatches (descriptor name : String) : Bool :=
  descriptor == "*" || descriptor == name

/-- Whether the transition is triggered by `event`; `none` stands for a step without event. -/
def Transition.matches (t : Transition) : Option String → Bool
  | none => t.events.isEmpty
  | some name => t.events.any (descriptorMatches · name)

/-- A state or pseudo-state. It does not hold its own number, which is its position among the
nodes of the chart. -/
structure Node where
  id : String
  kind : NodeKind
  parent : Option Nat
  /-- The number of states around the node. -/
  depth : Nat
  /-- The states directly below, in document order. -/
  children : List Nat
  initial : Option Nat
  histories : List Nat
  /-- The transitions whose source is the node, in order. -/
  transitions : List Nat
  onEntry : List Action
  onExit : List Action
  data : List Data
  invokes : List Invoke

/-- What stands at a number that is no node: a state on its own, without an id. -/
def Node.absent : Node :=
  ⟨"", .simple, none, 0, [], none, [], [], [], [], [], []⟩

structure Chart where
  name : Option String
  /-- The datamodel that the expressions of the chart are written for. -/
  datamodel : Option String
  /-- The variables of the chart as a whole. -/
  data : List Data
  topLevel : List Nat
  /-- Where the chart starts. -/
  initial : List Nat
  nodes : Array Node
  transitions : Array Transition

namespace Chart

def node (c : Chart) (s : Nat) : Node :=
  c.nodes.getD s .absent

def kind (c : Chart) (s : Nat) : NodeKind :=
  (c.node s).kind

def idOf (c : Chart) (s : Nat) : String :=
  (c.node s).id

def parent (c : Chart) (s : Nat) : Option Nat :=
  (c.node s).parent

def children (c : Chart) (s : Nat) : List Nat :=
  (c.node s).children

/-- The numbers of all nodes, in document order. -/
def states (c : Chart) : List Nat :=
  List.range c.nodes.size

/-- The node with the id `id`, if there is one. -/
def lookup (c : Chart) (id : String) : Option Nat :=
  c.nodes.findIdx? (fun n => n.id == id)

/-- The transition with the number `t`; at a number that is none, one that does nothing. -/
def transition (c : Chart) (t : Nat) : Transition :=
  c.transitions.getD t ⟨0, [], none, [], .external, []⟩

def idsOf (c : Chart) (states : List Nat) : List String :=
  states.map c.idOf

def isAtomic (c : Chart) (s : Nat) : Bool :=
  (c.kind s).isAtomic

def isPseudo (c : Chart) (s : Nat) : Bool :=
  (c.kind s).isPseudo

/-- The transition that enters a compound state by default. -/
def defaultTransition? (c : Chart) (s : Nat) : Option Nat :=
  (c.node s).initial.bind fun i => (c.node i).transitions.head?

/-- A region is a child of a parallel state. -/
def isRegion (c : Chart) (s : Nat) : Bool :=
  !c.isPseudo s &&
    match c.parent s with
    | some p => decide (c.kind p = .parallel)
    | none => false

end Chart

end Statechart
