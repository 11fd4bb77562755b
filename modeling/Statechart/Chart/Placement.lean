import Statechart.Chart.Outline
import Statechart.Chart.Problem

/-!
Placement gives every state of an outline its number: a state comes before the states inside
it, those in their order, and the default entry and the histories of a state after them. The
numbers inside a state take up one run, whose length is the size of its outline. Names are
looked up afterwards, when every state has its number.
-/

namespace Statechart

/-- A state named by id, or one whose number is known from the outline. -/
inductive Ref where
  | id (name : String)
  | number (s : Nat)
  deriving DecidableEq

/-- A transition whose targets are not looked up yet. -/
structure Arrow where
  events : List String
  condition : Option String
  targets : List Ref
  kind : TransitionKind
  actions : List Action

/-- What placement lays out, in the order of its work: nodes, each with the transitions that
start at it, and the problems met on the way. -/
inductive Placed where
  | node (node : Node) (arrows : List Arrow)
  | problem (problem : Problem)

def TransitionOutline.arrow (t : TransitionOutline) : Arrow :=
  ⟨t.events, t.condition, t.targets.map .id, t.kind, t.actions⟩

/-- The transition of a default entry with the given targets. -/
def Arrow.default (targets : List Ref) (actions : List Action) : Arrow :=
  ⟨[], none, targets, .external, actions⟩

/-- The targets that `default` names, or else `targets`. -/
def DefaultOutline.targetsOr (default : Option DefaultOutline) (targets : List Ref) : List Ref :=
  match default with
  | some d => if d.targets.isEmpty then targets else d.targets.map .id
  | none => targets

def DefaultOutline.actionsOf (default : Option DefaultOutline) : List Action :=
  match default with
  | some d => d.actions
  | none => []

/-- The id of a state that has none of its own. -/
def generatedId (index : Nat) : String :=
  "_generated_id_" ++ toString index

def StateHead.kind (head : StateHead) (hasChildren : Bool) : NodeKind :=
  match head.shape with
  | .parallel => .parallel
  | .final => .final
  | .plain => if hasChildren then .compound else .simple

namespace StateOutline

mutual
/-- How many nodes a state takes up: itself, the states inside it unless it is final, its
default entry if it is compound, and its histories. -/
def size : StateOutline → Nat
  | .mk head children =>
    1 + (if head.shape = .final then 0 else sizeAll children) +
      (if head.kind (!children.isEmpty) = .compound then 1 else 0) + head.histories.length
def sizeAll : List StateOutline → Nat
  | [] => 0
  | s :: rest => size s + sizeAll rest
end

/-- The numbers of states side by side, the first of them at `start`. -/
def numbersFrom (start : Nat) : List StateOutline → List Nat
  | [] => []
  | s :: rest => start :: numbersFrom (start + s.size) rest

/-- Places histories of the state `owner` side by side, the first of them at `start`. -/
def placeHistories (owner : Node) (ownerIndex : Nat) (defaults : List Ref) (start : Nat) :
    List HistoryOutline → List Placed
  | [] => []
  | h :: rest =>
    let id := h.id.getD (generatedId start)
    let node : Node :=
      { Node.absent with
        id := id, kind := .history h.depth, parent := some ownerIndex,
        depth := owner.depth + 1 }
    let targets := DefaultOutline.targetsOr h.default defaults
    .node node [.default targets (DefaultOutline.actionsOf h.default)] ::
      (if owner.kind.isAtomic then [.problem (.historyOnAtomicState id owner.id)] else []) ++
      placeHistories owner ownerIndex defaults (start + 1) rest

mutual
/-- Places a state and all inside it, itself at `index`. The states inside a final state are
left out. -/
def place (index : Nat) (parent : Option Nat) (depth : Nat) : StateOutline → List Placed
  | .mk head children =>
    let kind := head.kind (!children.isEmpty)
    let id := head.id.getD (generatedId index)
    let isFinal := decide (head.shape = .final)
    let numbers := if isFinal then [] else numbersFrom (index + 1) children
    let afterChildren := index + 1 + (if isFinal then 0 else sizeAll children)
    let isCompound := decide (kind = .compound)
    let firstHistory := afterChildren + (if isCompound then 1 else 0)
    let defaults :=
      if isCompound then DefaultOutline.targetsOr head.initial [.number (index + 1)]
      else numbers.map .number
    let node : Node :=
      { id := id, kind := kind, parent := parent, depth := depth, children := numbers,
        initial := if isCompound then some afterChildren else none,
        histories := List.range' firstHistory head.histories.length, transitions := [],
        onEntry := head.onEntry, onExit := head.onExit, data := head.data,
        invokes := head.invokes }
    let entry : Node :=
      { Node.absent with
        id := generatedId afterChildren, kind := .initial, parent := some index,
        depth := depth + 1 }
    [.node node (head.transitions.map TransitionOutline.arrow)] ++
      (if isFinal && !children.isEmpty then [.problem (.finalWithChildren id)] else []) ++
      (if kind = .parallel ∧ children.isEmpty then [.problem (.emptyParallel id)] else []) ++
      (if isFinal then [] else placeAll (index + 1) (some index) (depth + 1) children) ++
      (if isCompound then
        [.node entry [.default defaults (DefaultOutline.actionsOf head.initial)]]
      else if head.initial.isSome then [.problem (.initialOnNonCompound id)]
      else []) ++
      placeHistories node index defaults firstHistory head.histories
/-- Places states side by side, the first of them at `index`. -/
def placeAll (index : Nat) (parent : Option Nat) (depth : Nat) :
    List StateOutline → List Placed
  | [] => []
  | s :: rest => place index parent depth s ++ placeAll (index + s.size) parent depth rest
end

end StateOutline

namespace Placed

def node? : Placed → Option (Node × List Arrow)
  | .node n arrows => some (n, arrows)
  | .problem _ => none

/-- The problems among `placed`, with one for every id in `seen` or before that is given
again. -/
def problemsFrom (seen : List String) : List Placed → List Problem
  | [] => []
  | .problem p :: rest => p :: problemsFrom seen rest
  | .node n _ :: rest =>
    if n.id ∈ seen then .duplicateId n.id :: problemsFrom seen rest
    else problemsFrom (n.id :: seen) rest

end Placed

/-- The number that a reference stands for; of nodes with one id the first counts. -/
def Ref.number? (ids : List String) : Ref → Option Nat
  | .number s => some s
  | .id name => ids.findIdx? (· == name)

/-- The problem of a reference that stands for no node. -/
def Ref.problem? (ids : List String) (owner : String) : Ref → Option Problem
  | .number _ => none
  | .id name => if name ∈ ids then none else some (.unresolvedTarget owner name)

/-- Gives every node the numbers of its transitions, counting on from `next`. -/
def numberTransitions (next : Nat) : List (Node × List Arrow) → List Node
  | [] => []
  | (n, arrows) :: rest =>
    { n with transitions := List.range' next arrows.length } ::
      numberTransitions (next + arrows.length) rest

/-- The transitions of nodes in order, the first node being number `source`. -/
def resolveFrom (ids : List String) (source : Nat) :
    List (Node × List Arrow) → List Transition
  | [] => []
  | (_, arrows) :: rest =>
    arrows.map (fun a =>
      ⟨source, a.events, a.condition, a.targets.filterMap (Ref.number? ids), a.kind, a.actions⟩)
      ++ resolveFrom ids (source + 1) rest

namespace Outline

def placed (o : Outline) : List Placed :=
  StateOutline.placeAll 0 none 0 o.states

/-- The states to start in. -/
def start (o : Outline) : List Ref :=
  if o.initial.isEmpty then [.number 0] else o.initial.map .id

/-- The chart of an outline, whether there are problems with it or not; references that stand
for no node are left out. -/
def chart (o : Outline) : Chart :=
  let nodes := o.placed.filterMap Placed.node?
  let ids := nodes.map (·.1.id)
  { name := o.name, datamodel := o.datamodel, data := o.data,
    topLevel := StateOutline.numbersFrom 0 o.states,
    initial := o.start.filterMap (Ref.number? ids),
    nodes := (numberTransitions 0 nodes).toArray,
    transitions := (resolveFrom ids 0 nodes).toArray }

/-- The owner under which the start of a chart stands in messages. -/
def startOwner : String := "<document>"

/-- The problems that show when numbers and names are given out: those of placement, then
those of names without a state. -/
def placementProblems (o : Outline) : List Problem :=
  let nodes := o.placed.filterMap Placed.node?
  let ids := nodes.map (·.1.id)
  Placed.problemsFrom [] o.placed ++
    nodes.flatMap (fun n =>
      n.2.flatMap (fun a => a.targets.filterMap (Ref.problem? ids n.1.id))) ++
    o.start.filterMap (Ref.problem? ids startOwner)

end Outline

end Statechart
