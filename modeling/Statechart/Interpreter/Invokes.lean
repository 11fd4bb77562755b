import Statechart.Interpreter.Content

/-!
Services. A state that declares services and is entered in a macrostep has them started when
the macrostep has settled, if it is still active then; leaving the state cancels them. What a
host refuses is reported and raises an error event that names the service.
-/

namespace Statechart

/-- Notes that a service of the state `s` runs. -/
def Run.keepInvoke {σ : Type} (r : Run σ) (s : Nat) (invokeId : String) : Run σ :=
  r.mapSession fun session =>
    { session with
      invokes := session.invokes.insert s ((session.invokes.get? s).getD [] ++ [invokeId]) }

namespace Interpreter

variable {σ : Type} (m : Interpreter σ)

/-- Reports the refusal of a service of the state `s`. -/
def invokeRefused (s : Nat) (invokeId : String) (e : InvokeError) (r : Run σ) : Run σ :=
  (r.report .invokerError e.message (some (m.chart.idOf s))).raise
    { Event.error Event.errorExecution with invokeId := some invokeId }

/-- The parameters of a service: one whose expression fails is reported and left out. -/
def invokeParams (s : Nat) (params : List Param) (r : Run σ) :
    SortedMap String Json.Value × Run σ :=
  params.foldl
    (fun (known, r) p =>
      match m.evaluator.paramValue (m.viewOf r s) p with
      | .ok value => (known.insert p.name value, r)
      | .error e => (known, r.report .expressionError e.message (some (m.chart.idOf s))))
    (∅, r)

/-- Starts one service of the state `s`. Without an id of its own it gets one from the id of
the state and the next number. -/
def startInvoke (s : Nat) (i : Invoke) (r : Run σ) : Run σ :=
  let (invokeId, r) : String × Run σ := match i.id with
    | some id => (id, r)
    | none =>
      let r := r.mapSession Session.advance
      (m.chart.idOf s ++ "." ++ toString r.session.sequence.toNat, r)
  let (params, r) := m.invokeParams s i.params r
  let request : InvokeRequest := ⟨invokeId, m.chart.idOf s, i.kind, i.src, params⟩
  let answer := m.host.startInvoke request r.world
  let r := (r.hear answer).note (.startInvoke request answer.1)
  match answer.1.refusal with
  | none => r.keepInvoke s invokeId
  | some e => m.invokeRefused s invokeId e r

/-- Starts the services of all states that wait for it and are still active. -/
def startInvokes (r : Run σ) : Run σ :=
  let waiting := r.session.pendingInvokes
  let r := r.mapSession fun session => { session with pendingInvokes := ∅ }
  waiting.members.foldl
    (fun r s =>
      if s ∈ r.session.configuration.active then
        (m.chart.node s).invokes.foldl (fun r i => m.startInvoke s i r) r
      else r)
    r

/-- Cancels one service of the state `s`. -/
def cancelInvoke (s : Nat) (invokeId : String) (r : Run σ) : Run σ :=
  let answer := m.host.cancelInvoke invokeId r.world
  let r := (r.hear answer).note (.cancelInvoke invokeId answer.1)
  match answer.1.refusal with
  | none => r
  | some e => m.invokeRefused s invokeId e r

/-- Cancels the services of the state `s`, in the order in which they were started. -/
def cancelInvokes (s : Nat) (r : Run σ) : Run σ :=
  match r.session.invokes.get? s with
  | none => r
  | some ids =>
    let r := r.mapSession fun session => { session with invokes := session.invokes.erase s }
    ids.foldl (fun r invokeId => m.cancelInvoke s invokeId r) r

/-- Cancels all services. -/
def cancelAllInvokes (r : Run σ) : Run σ :=
  r.session.invokes.keys.foldl (fun r s => m.cancelInvokes s r) r

end Interpreter

end Statechart
