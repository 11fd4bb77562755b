import Statechart.Interpreter.Microstep

/-!
Macrosteps: after an event has been taken in, transitions without event fire and internal
events are taken until nothing is left to do; then services are started, and what that raises
is taken as well. A ceiling on the number of microsteps ends a macrostep that does not settle.
-/

namespace Statechart

/-- How far a series of steps has come: an error ends it, and otherwise there are the summaries
of its steps so far. -/
abbrev Outcome := Except StepError (List Summary)

namespace Interpreter

variable {σ : Type} (m : Interpreter σ)

/-- Ends the session: all services are cancelled. -/
def stop (r : Run σ) : Run σ :=
  (m.cancelAllInvokes r).mapSession fun session => { session with running := false }

/-- The summary of a step, unless the step neither fired nor entered anything. -/
def summaryOf (step : Step) : List Summary :=
  if step.hasFired || !step.entryList.isEmpty then [step.summary m.chart] else []

/-- What one round of a macrostep comes to. -/
inductive Round (σ : Type) where
  /-- A microstep was made. -/
  | moved (step : Step) (r : Run σ)
  /-- There was nothing to do. -/
  | idle (r : Run σ)
  | failed (error : StepError) (r : Run σ)

/-- Takes the next internal event, if one waits. -/
def takeInternal (r : Run σ) : Option (Event × Run σ) :=
  match r.session.internal with
  | [] => none
  | e :: rest =>
    some (e, (r.mapSession fun session => { session with internal := rest }).note (.taken e))

/-- Makes a microstep without event, or else one for the next internal event. -/
def round (r : Run σ) : Round σ :=
  match m.microstep none r with
  | (.error e, r) => .failed e r
  | (.ok step, r) =>
    if step.hasFired then .moved step r
    else
      match takeInternal r with
      | none => .idle r
      | some (e, r) =>
        match m.microstep (some e) r with
        | (.error e, r) => .failed e r
        | (.ok step, r) => .moved step r

/-- The end of a macrostep that has settled: a session in a final state stops. -/
def settled (r : Run σ) : Run σ :=
  let r := r.mapSession Session.publishPending
  if r.session.status.isFinal then m.stop r else r

/-- The end of a macrostep that has used up its microsteps. -/
def exhausted (r : Run σ) : Run σ :=
  let r := r.report .loopLimit
    ("macrostep exceeded " ++ toString m.config.maxMicrosteps ++ " microsteps, stopping") none
  (m.stop r).mapSession Session.publishPending

/-- Goes on until nothing is left to do, making at most `budget` microsteps. Starting services
is not a microstep, but it may raise events that have to be taken. -/
def settle : (budget : Nat) → Run σ → Outcome × Run σ
  | 0, r => (.ok [], m.exhausted r)
  | budget + 1, r =>
    let goOn (step : Step) (r : Run σ) : Outcome × Run σ :=
      let (rest, r) := settle budget r
      (rest.map (m.summaryOf step ++ ·), r)
    match m.round r with
    | .failed e r => (.error e, r)
    | .moved step r => goOn step r
    | .idle r =>
      let r := m.startInvokes r
      if r.session.internal.isEmpty then (.ok [], m.settled r)
      else
        match m.round r with
        | .failed e r => (.error e, r)
        | .moved step r => goOn step r
        | .idle r => (.ok [], m.settled r)

/-- Completes a macrostep after its first step; an error stops the session. -/
def complete (first : Except StepError Step × Run σ) : Outcome × Run σ :=
  let outcome : Outcome × Run σ := match first with
    | (.error e, r) => (.error e, r)
    | (.ok step, r) =>
      let (rest, r) := m.settle m.config.maxMicrosteps r
      (rest.map (m.summaryOf step ++ ·), r)
  match outcome with
  | (.error e, r) => (.error e, m.stop r)
  | ok => ok

end Interpreter

end Statechart
