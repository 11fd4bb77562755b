import Statechart.Interpreter.Run

/-!
Completion. Entering a final state completes the state around it, and completes a parallel
state when that makes the last of its regions complete; either raises an event. Leaving a
final state withdraws what entering it has completed.
-/

namespace Statechart

namespace Session

def complete (session : Session) (s : Nat) : Session :=
  { session with completed := session.completed.insert s }

def withdraw (session : Session) (s : Nat) : Session :=
  { session with completed := session.completed.erase s }

end Session

namespace Interpreter

variable {σ : Type} (m : Interpreter σ)

/-- Raises the event that the state `s` is done. -/
def raiseDone (s : Nat) (r : Run σ) : Run σ :=
  r.raise (.plain (Event.doneName (m.chart.idOf s)) .change)

/-- Completes a parallel state if all its regions are complete and it is not complete yet. -/
def completeParallel (p : Nat) (r : Run σ) : Run σ :=
  if (m.chart.children p).all (fun region => decide (region ∈ r.session.completed)) ∧
      p ∉ r.session.completed then
    m.raiseDone p (r.mapSession (·.complete p))
  else r

/-- What follows from entering the final state `s`. A final region completes itself without an
event; a final state at the top level completes nothing. -/
def completeAround (s : Nat) (r : Run σ) : Run σ :=
  match m.chart.parent s with
  | none => r
  | some p =>
    if m.chart.kind p = .parallel then
      m.completeParallel p (r.mapSession (·.complete s))
    else
      let r := m.raiseDone p (r.mapSession (·.complete p))
      match m.chart.parent p with
      | some g => if m.chart.kind g = .parallel then m.completeParallel g r else r
      | none => r

/-- What follows from leaving the final state `s`. -/
def reopenAround (s : Nat) (r : Run σ) : Run σ :=
  match m.chart.parent s with
  | none => r
  | some p =>
    let r := r.mapSession (·.withdraw p)
    match m.chart.parent p with
    | some g => if m.chart.kind g = .parallel then r.mapSession (·.withdraw g) else r
    | none => r

end Interpreter

end Statechart
