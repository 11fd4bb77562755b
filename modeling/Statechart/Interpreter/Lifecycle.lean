import Statechart.Interpreter.Macrostep

/-!
The life of a session: it is reset, started, handed events and stopped. External events are
handed over one by one or taken from the queue of the run.
-/

namespace Statechart.Interpreter

variable {σ : Type} (m : Interpreter σ)

/-- A run of a session that is laid out and has not started. -/
def begin (id : SessionId) (world : σ) : Run σ :=
  ⟨Session.fresh m.chart m.evaluator.sharesContext id, [], world, []⟩

/-- Clears the session, whose id it keeps, and initialises its variables. No state is
entered. -/
def reset (r : Run σ) : Run σ :=
  let r := m.cancelAllInvokes r
  let r := r.mapSession fun session =>
    Session.fresh m.chart m.evaluator.sharesContext session.id
  (m.initializeData r).mapSession (·.publish m.chart)

/-- Resets the session and enters the start of the chart. -/
def go (r : Run σ) : Outcome × Run σ :=
  let r := (m.reset r).mapSession fun session => { session with running := true }
  m.complete (m.initialStep r)

/-- Processes one external event. A session that is not running ignores it, and an event of the
kind cancel stops the session. -/
def trigger (event : Event) (r : Run σ) : Outcome × Run σ :=
  if !r.session.running then (.ok [], r)
  else if event.kind = .cancel then (.ok [], m.stop r)
  else m.complete (m.microstep (some event) r)

/-- Processes events in order, up to the first error. -/
def triggerAll : List Event → Run σ → Outcome × Run σ
  | [], r => (.ok [], r)
  | event :: rest, r =>
    match m.trigger event r with
    | (.error e, r) => (.error e, r)
    | (.ok summaries, r) =>
      let (others, r) := triggerAll rest r
      (others.map (summaries ++ ·), r)

/-- Processes the events of the queue while the session is running, those that arrive meanwhile
included; `none` when more than `rounds` events are taken. -/
def drainQueue : (rounds : Nat) → Run σ → Option (Outcome × Run σ)
  | rounds, r =>
    if !r.session.running then some (.ok [], r)
    else
      match r.queue with
      | [] => some (.ok [], r)
      | event :: rest =>
        match rounds with
        | 0 => none
        | rounds + 1 =>
          match m.trigger event { r with queue := rest } with
          | (.error e, r) => some (.error e, r)
          | (.ok summaries, r) =>
            (drainQueue rounds r).map fun (others, r) => (others.map (summaries ++ ·), r)

/-- The value of a variable as the state with the id `state` sees it, or the chart itself. -/
def value (r : Run σ) (state : Option String) (name : String) : Option Json.Value :=
  match state with
  | none => r.session.scopes.get? Session.globalScope name
  | some id => (m.chart.lookup id).bind fun s => (m.viewOf r s).get? name

/-- Whether the state with the id `id` is active, as last published. -/
def isActive (r : Run σ) (id : String) : Bool :=
  match m.chart.lookup id with
  | some s => decide (s ∈ r.session.status.all)
  | none => false

end Statechart.Interpreter
