import Statechart.Chart.Ancestry
import Statechart.Chart.Placement

/-!
Checks of a chart whose names are all resolved: targets that can be active together, default
entries that stay inside their state, invokes that name a type.
-/

namespace Statechart.Chart

/-- Whether `a` and `b` can be active together: neither is the other or above it, and the
innermost state above both is parallel. -/
def areOrthogonal (c : Chart) (a b : Nat) : Bool :=
  !(decide (a = b) || c.isDescendant a b || c.isDescendant b a) &&
    match c.lca a b with
    | some common => decide (c.kind common = .parallel)
    | none => false

/-- Whether all of `targets` can be active together. -/
def areCompatible (c : Chart) : List Nat → Bool
  | [] => true
  | a :: rest => rest.all (c.areOrthogonal a) && areCompatible c rest

def targetProblems (c : Chart) (owner : String) (targets : List Nat) : List Problem :=
  if c.areCompatible targets then [] else [.illegalMultiTarget owner (c.idsOf targets)]

/-- The problems of the default entry `n` of the state `parent`. -/
def initialProblems (c : Chart) (n : Node) (parent : Nat) : List Problem :=
  n.transitions.flatMap fun t =>
    let targets := (c.transition t).targets
    (targets.filter (fun target => !c.isDescendant target parent)).map
        (fun target => .illegalInitial (c.idOf parent) (c.idOf target)) ++
      c.targetProblems (c.idOf parent) targets

/-- The problems of the history `n` of the state `parent`. -/
def historyProblems (c : Chart) (n : Node) (depth : HistoryDepth) (parent : Nat) :
    List Problem :=
  match n.transitions.head? with
  | none => []
  | some t =>
    let (allowed, expected) : (Nat → Bool) × String := match depth with
      | .shallow => (fun target => decide (c.parent target = some parent), "children")
      | .deep => (fun target => c.isDescendant target parent, "descendants")
    ((c.transition t).targets.filter (fun target => !allowed target)).map
      (fun target => .illegalHistoryDefault n.id (c.idOf parent) (c.idOf target) expected)

def nodeProblems (c : Chart) (n : Node) : List Problem :=
  match n.kind, n.parent with
  | .initial, some parent => c.initialProblems n parent
  | .initial, none => []
  | .history depth, some parent => c.historyProblems n depth parent
  | .history _, none => []
  | _, _ =>
    (n.invokes.filter (fun i => (Text.trim i.kind).isEmpty)).map
        (fun _ => .invokeWithoutType n.id) ++
      n.transitions.flatMap (fun t => c.targetProblems n.id (c.transition t).targets)

/-- All problems of a chart, in document order. -/
def problems (c : Chart) : List Problem :=
  c.targetProblems Outline.startOwner c.initial ++ c.nodes.toList.flatMap c.nodeProblems

end Statechart.Chart

namespace Statechart.Outline

/-- The chart of an outline without problems. The chart is checked only when every name in it
is resolved. -/
def build (o : Outline) : Except BuildError Chart :=
  if o.states.isEmpty then .error .noStates
  else
    match o.placementProblems with
    | [] =>
      match o.chart.problems with
      | [] => .ok o.chart
      | problems => .error (.invalid problems)
    | problems => .error (.invalid problems)

end Statechart.Outline
