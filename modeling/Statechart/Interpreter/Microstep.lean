import Statechart.Interpreter.Completion
import Statechart.Interpreter.Expansion
import Statechart.Interpreter.Invokes
import Statechart.Interpreter.Selection

/-!
Microsteps: an event, or no event, fires a set of transitions. The states to leave and to
enter are determined and checked first; then histories are recorded, content runs, and the
configuration changes.
-/

namespace Statechart

/-- The account of one microstep. -/
structure Step where
  event : Option Event
  before : Status
  after : Status
  candidates : List Candidate
  /-- The transitions that fire, in the order in which they were selected. -/
  transitions : List Nat
  /-- The states left, in order. -/
  exitList : List Nat
  /-- The states entered, in order. -/
  entryList : List Nat
  /-- The compound states entered by default. -/
  defaultEntry : StateSet
  /-- The histories entered by default, with the transitions taken. -/
  historyDefaults : SortedMap Nat Nat
  /-- The states entered that declare services. -/
  toInvoke : StateSet

namespace Step

/-- A step in which nothing has happened yet. -/
def start (event : Option Event) (before : Status) : Step :=
  ⟨event, before, before, [], [], [], [], ∅, ∅, ∅⟩

def hasFired (step : Step) : Bool :=
  !step.transitions.isEmpty

end Step

/-- A transition that fired, by the ids of its states. -/
structure Firing where
  source : String
  targets : List String
  deriving DecidableEq

/-- A microstep as it is told to the outside, by ids. -/
structure Summary where
  event : Option String
  transitions : List Firing
  exited : List String
  entered : List String
  /-- The states active after the step, in document order. -/
  active : List String
  deriving DecidableEq

def Step.summary (step : Step) (c : Chart) : Summary where
  event := step.event.map Event.name
  transitions := step.transitions.map fun t =>
    ⟨c.idOf (c.transition t).source, c.idsOf (c.transition t).targets⟩
  exited := c.idsOf step.exitList
  entered := c.idsOf step.entryList
  active := c.idsOf step.after.all.members

/-- What a set of transitions leaves and enters. -/
structure Plan where
  exitList : List Nat
  entryList : List Nat
  /-- The states without children that are active afterwards. -/
  next : StateSet
  expansion : Expansion

/-- The plan of entering the start of a chart. -/
def Chart.planStart (c : Chart) (histories : Histories) : Plan :=
  let expansion := c.expand histories c.initial ∅
  { exitList := []
    entryList := c.entryOrder (c.closure expansion.targets.members).members
    next := expansion.targets
    expansion := expansion }

/-- The plan of firing `transitions` together. What stays active is left alone; everything
else that will be active is entered. -/
def Chart.plan (c : Chart) (histories : Histories) (before : Status) (transitions : List Nat) :
    Plan :=
  let exits := transitions.foldl
    (fun exits t => exits.union (c.exitSet (c.transition t) before.states)) (∅ : StateSet)
  let residual := before.states.diff exits
  let expansion := c.expand histories (c.seeds residual transitions) residual
  let next := residual.union expansion.targets
  let remaining := before.all.diff exits
  { exitList := c.exitOrder exits.members
    entryList := c.entryOrder ((c.closure next.members).diff remaining).members
    next := next
    expansion := expansion }

namespace Interpreter

variable {σ : Type} (m : Interpreter σ)

/-- Reports what keeps the states `next` from being active together. It ends the step when the
settings say so. -/
def checkLegality (next : StateSet) (r : Run σ) : Option StepError × Run σ :=
  if !m.config.checkLegality then (none, r)
  else
    match m.chart.violations next with
    | [] => (none, r)
    | violations =>
      let r := violations.foldl (fun r v => r.note (.report v.report)) r
      match m.config.legality with
      | .warn => (none, r)
      | .fatal => (some (.illegalConfiguration violations), r)

/-- Reports the compound states that have no default entry, then checks the plan. -/
def approve (plan : Plan) (r : Run σ) : Option StepError × Run σ :=
  let r := plan.expansion.lacking.foldl
    (fun r s =>
      r.report .noInitial "compound state has no initial transition" (some (m.chart.idOf s))) r
  m.checkLegality plan.next r

/-- Leaves one state: its content runs, its services end, and what it had completed is
withdrawn. -/
def leave (s : Nat) (r : Run σ) : Run σ :=
  let r := m.cancelInvokes s (m.runBlock (.exit s) s (m.chart.node s).onExit r)
  let r := r.mapSession fun session =>
    { session.withdraw s with pendingInvokes := session.pendingInvokes.erase s }
  if m.chart.kind s = .final then m.reopenAround s r else r

/-- Runs the content of a transition that fires. -/
def fire (t : Nat) (r : Run σ) : Run σ :=
  let transition := m.chart.transition t
  m.runBlock (.transition t) transition.source transition.actions r

/-- Runs the content of the defaults that lead into `s`: its own default entry and those of its
histories. -/
def runDefaults (step : Step) (s : Nat) (r : Run σ) : Run σ :=
  let r := match m.chart.defaultTransition? s with
    | some t =>
      if s ∈ step.defaultEntry then
        m.runBlock (.initial s) s (m.chart.transition t).actions r
      else r
    | none => r
  (m.chart.node s).histories.foldl
    (fun r h =>
      match step.historyDefaults.get? h with
      | some t => m.runBlock (.history h) s (m.chart.transition t).actions r
      | none => r)
    r

/-- Enters one state: its content runs, then that of the defaults that lead into it; its
services wait to be started, and a final state completes what is around it. -/
def enter (step : Step) (s : Nat) (r : Run σ) : Run σ :=
  let r := r.mapSession (·.withdraw s)
  let r := m.runDefaults step s (m.runBlock (.entry s) s (m.chart.node s).onEntry r)
  let r :=
    if (m.chart.node s).invokes.isEmpty then r
    else r.mapSession fun session =>
      { session with pendingInvokes := session.pendingInvokes.insert s }
  if m.chart.kind s = .final then m.completeAround s r else r

/-- Runs all content of a step: of the states left, the transitions and the states entered. -/
def runContent (step : Step) (r : Run σ) : Run σ :=
  let r := step.exitList.foldl (fun r s => m.leave s r) r
  let r := step.transitions.foldl (fun r t => m.fire t r) r
  step.entryList.foldl (fun r s => m.enter step s r) r

/-- Changes the configuration as the step says and publishes it. -/
def moveConfiguration (step : Step) (r : Run σ) : Except StepError Step × Run σ :=
  match r.session.configuration.move m.chart step.exitList step.entryList with
  | (some e, conf) =>
    (.error (.configuration e),
      r.mapSession fun session => { session with configuration := conf })
  | (none, conf) =>
    let r := r.mapSession fun session =>
      ({ session with configuration := conf }).publish m.chart
    (.ok { step with after := r.session.status }, r)

/-- The step with what `plan` says. -/
def planned (plan : Plan) (step : Step) : Step :=
  { step with
    exitList := plan.exitList, entryList := plan.entryList,
    defaultEntry := plan.expansion.defaultEntry,
    historyDefaults := plan.expansion.historyDefaults,
    toInvoke := StateSet.ofList
      (plan.entryList.filter (fun s => !(m.chart.node s).invokes.isEmpty)) }

/-- Carries out an approved step. -/
def carryOut (step : Step) (r : Run σ) : Except StepError Step × Run σ :=
  m.moveConfiguration step (m.runContent step r)

/-- Enters the start of the chart. -/
def initialStep (r : Run σ) : Except StepError Step × Run σ :=
  let step := Step.start none .empty
  if m.chart.initial.isEmpty then
    m.carryOut step (r.report .noInitial "document has no initial states" none)
  else
    let plan := m.chart.planStart r.session.histories
    match m.approve plan r with
    | (some e, r) => (.error e, r)
    | (none, r) => m.carryOut (m.planned plan step) r

/-- Performs one microstep. Without a transition to fire nothing changes but the variable of
the current event. -/
def microstep (event : Option Event) (r : Run σ) : Except StepError Step × Run σ :=
  let r := r.mapSession (·.bindEvent event)
  let before := r.session.status
  let candidates := m.chart.candidates (event.map Event.name) before.states
  let (transitions, r) := m.select candidates before.states r
  let step :=
    { Step.start event before with candidates := candidates, transitions := transitions }
  if transitions.isEmpty then (.ok step, r)
  else
    let plan := m.chart.plan r.session.histories before transitions
    match m.approve plan r with
    | (some e, r) => (.error e, r)
    | (none, r) =>
      let r := r.mapSession fun session =>
        { session with
          histories := plan.exitList.foldl
            (fun histories s => histories.recordExit m.chart s before) session.histories }
      m.carryOut (m.planned plan step) r

end Interpreter

end Statechart
