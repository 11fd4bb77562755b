import Statechart.Chart.Path
import Statechart.Interpreter.Content

/-!
Selection of the transitions of a microstep. Every active state without children looks for the
first enabled transition on its way to the top; of the transitions found, one that would leave
a state that an earlier one leaves is dropped.
-/

namespace Statechart

/-- The transitions that an active state without children can see, innermost first. -/
structure Candidate where
  origin : Nat
  transitions : List Nat
  deriving DecidableEq

/-- The transitions on the states of a branch that match the event. -/
def Chart.matching (c : Chart) (event : Option String) (s : Nat) : List Nat :=
  (c.branch s).flatMap fun a =>
    (c.node a).transitions.filter (fun t => (c.transition t).matches event)

/-- The candidates of the active states, in document order; those without any transition are
left out. -/
def Chart.candidates (c : Chart) (event : Option String) (active : StateSet) :
    List Candidate :=
  (active.members.map (fun s => ⟨s, c.matching event s⟩)).filter
    (fun candidate => !candidate.transitions.isEmpty)

namespace Interpreter

variable {σ : Type} (m : Interpreter σ)

/-- Evaluates the guard of a transition. A guard that fails is reported and does not hold. -/
def guardHolds (t : Nat) (r : Run σ) : Bool × Run σ :=
  let transition := m.chart.transition t
  match transition.condition with
  | none => (true, r)
  | some condition =>
    let view := m.viewOf r transition.source
    let r := r.note (.guarded t)
    match m.evaluator.holds view condition with
    | .ok verdict => (verdict, r)
    | .error e =>
      (false,
        r.report .expressionError e.message (some (m.chart.idOf transition.source)))

/-- The guards evaluated so far. -/
abbrev Verdicts := SortedMap Nat Bool

/-- The first of `transitions` whose guard holds. No guard is evaluated twice. -/
def firstEnabled : List Nat → Verdicts → Run σ → Option Nat × Verdicts × Run σ
  | [], verdicts, r => (none, verdicts, r)
  | t :: rest, verdicts, r =>
    match verdicts.get? t with
    | some true => (some t, verdicts, r)
    | some false => firstEnabled rest verdicts r
    | none =>
      let (verdict, r) := m.guardHolds t r
      let verdicts := verdicts.insert t verdict
      if verdict then (some t, verdicts, r) else firstEnabled rest verdicts r

/-- The first enabled transition of each candidate, each transition once. -/
def enabled : List Candidate → Verdicts → Run σ → List Nat × Run σ
  | [], _, r => ([], r)
  | candidate :: rest, verdicts, r =>
    let (found, verdicts, r) := m.firstEnabled candidate.transitions verdicts r
    let (others, r) := enabled rest verdicts r
    match found with
    | some t => (t :: others.filter (· != t), r)
    | none => (others, r)

/-- Reports a transition that is dropped in favour of `winner`. -/
def reportDropped (t winner : Nat) (r : Run σ) : Run σ :=
  let source := m.chart.idOf (m.chart.transition t).source
  r.report .nonDeterministic
    ("transition t" ++ toString t ++ " from '" ++ source ++ "' conflicts with t" ++
      toString winner ++ " and is dropped")
    (some source)

/-- Keeps each transition that leaves no state left by one of `kept`; those are given in order
with what they leave. -/
def dropConflicts (active : StateSet) (kept : List (Nat × StateSet)) :
    List Nat → Run σ → List Nat × Run σ
  | [], r => (kept.map Prod.fst, r)
  | t :: rest, r =>
    let exits := m.chart.exitSet (m.chart.transition t) active
    match kept.find? (fun k => !k.2.isDisjoint exits) with
    | some (winner, _) => dropConflicts active kept rest (m.reportDropped t winner r)
    | none => dropConflicts active (kept ++ [(t, exits)]) rest r

/-- The transitions that fire, in the order in which they were found. -/
def select (candidates : List Candidate) (active : StateSet) (r : Run σ) : List Nat × Run σ :=
  let (found, r) := m.enabled candidates ∅ r
  m.dropConflicts active [] found r

end Interpreter

end Statechart
