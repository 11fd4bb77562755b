import Statechart.Interpreter.Run
import Statechart.Json.Printer

/-!
Execution of content. The actions of a block run in order, and the first that fails ends its
block and every conditional around it; the failure is reported and raises an error event.
-/

namespace Statechart

/-- Why an action fails. -/
inductive ContentError where
  | evaluation (error : EvaluationError)
  | undefinedVariable (name : String)
  | readOnly (name : String)
  | missingEvent
  | dispatch (error : DispatchError)
  deriving DecidableEq

namespace ContentError

def message : ContentError → String
  | evaluation error => error.message
  | undefinedVariable name => "Assignment to undeclared variable '" ++ name ++ "'"
  | readOnly name => "System variable '" ++ name ++ "' is read-only"
  | missingEvent => "Send has neither an event nor an event expression"
  | dispatch error => error.message

def kind : ContentError → ReportKind
  | evaluation _ => .expressionError
  | undefinedVariable _ => .undefinedVariable
  | readOnly _ | missingEvent => .executionError
  | dispatch _ => .communicationError

/-- The name of the error event that the failure raises. -/
def eventName : ContentError → String
  | dispatch _ => Event.errorCommunication
  | _ => Event.errorExecution

end ContentError

namespace Evaluator

/-- The value of `expr`, failing as an action does. -/
def evalIn (evaluator : Evaluator) (view : View) (expr : String) :
    Except ContentError Json.Value :=
  (evaluator.eval view expr).mapError .evaluation

/-- The value of a parameter: of its expression, or else of its variable, null if that does not
exist. -/
def paramValue (evaluator : Evaluator) (view : View) (p : Param) :
    Except EvaluationError Json.Value :=
  match p.expr, p.location with
  | some expr, _ => evaluator.eval view expr
  | none, some location => .ok ((view.get? location).getD .null)
  | none, none => .ok .null

/-- The name of the event to send. -/
def eventName (evaluator : Evaluator) (view : View) (s : Send) : Except ContentError String :=
  match s.event, s.eventExpr with
  | some event, _ => .ok event
  | none, some expr => (evaluator.evalIn view expr).map Json.Value.display
  | none, none => .error .missingEvent

/-- The payload of a send; none if there is nothing to put in. -/
def payload (evaluator : Evaluator) (view : View) (s : Send) :
    Except ContentError (Option Json.Value) :=
  match s.content with
  | some expr => (evaluator.evalIn view expr).map some
  | none => do
    let listed ← s.names.mapM fun name =>
      match view.get? name with
      | some value => .ok (name, value)
      | none => .error (.undefinedVariable name)
    let passed ← s.params.mapM fun p =>
      ((evaluator.paramValue view p).mapError .evaluation).map (fun value => (p.name, value))
    let members := listed ++ passed
    .ok (if members.isEmpty then none else some (.ofMembers members))

end Evaluator

namespace Interpreter

variable {σ : Type} (m : Interpreter σ)

/-- What the content of `s` sees in the course of a run. -/
def viewOf (r : Run σ) (s : Nat) : View :=
  r.session.view m.chart s

/-- Changes the variables of a run as they are seen from `s`. -/
def writeFrom (s : Nat) (r : Run σ) (f : Scopes → Nat → Scopes) : Run σ :=
  r.mapSession fun session =>
    { session with scopes := f session.scopes (session.scopeOf m.chart s) }

def assign (owner : Nat) (location expr : String) (r : Run σ) : Option ContentError × Run σ :=
  let view := m.viewOf r owner
  if isSystemVariable location then (some (.readOnly location), r)
  else if !view.has location then (some (.undefinedVariable location), r)
  else
    match m.evaluator.eval view expr with
    | .error e => (some (.evaluation e), r)
    | .ok value => (none, m.writeFrom owner r (fun scopes s => scopes.set s location value))

def declare (owner : Nat) (name : String) (expr : Option String) (r : Run σ) :
    Option ContentError × Run σ :=
  let write (value : Json.Value) :=
    m.writeFrom owner r (fun scopes s => scopes.setLocal s name value)
  if isSystemVariable name then (some (.readOnly name), r)
  else
    match expr with
    | none => (none, write .null)
    | some expr =>
      match m.evaluator.eval (m.viewOf r owner) expr with
      | .error e => (some (.evaluation e), r)
      | .ok value => (none, write value)

def log (owner : Nat) (label expr : Option String) (r : Run σ) : Option ContentError × Run σ :=
  let write (text : String) := r.note (.log label (m.chart.idOf owner) text)
  match expr with
  | none => (none, write "")
  | some expr =>
    match m.evaluator.eval (m.viewOf r owner) expr with
    | .error e => (some (.evaluation e), r)
    | .ok value => (none, write value.display)

/-- Hands a request to the host. -/
def dispatch (request : SendRequest) (r : Run σ) : Option ContentError × Run σ :=
  let answer := m.host.send request r.world
  let r := (r.hear answer).note (.send request answer.1)
  (answer.1.refusal.map .dispatch, r)

/-- The event, the payload and then the id of the send are determined, in this order; without
an id of its own it gets the next generated one. -/
def send (owner : Nat) (s : Send) (r : Run σ) : Option ContentError × Run σ :=
  let view := m.viewOf r owner
  match m.evaluator.eventName view s with
  | .error e => (some e, r)
  | .ok event =>
    match m.evaluator.payload view s with
    | .error e => (some e, r)
    | .ok data =>
      let (sendId, r) : String × Run σ := match s.id with
        | some id => (id, r)
        | none =>
          let r := r.mapSession Session.advance
          (r.session.sendId, r)
      if s.target = some Send.internalTarget then
        (none, r.raise { Event.signal event with sendId := some sendId, data := data })
      else
        m.dispatch
          { sendId := sendId, event := event, target := s.target, targetType := s.targetType,
            data := data, delay := s.delay.getD 0, origin := r.session.id.render } r

def cancelSend (sendId : String) (r : Run σ) : Run σ :=
  let answer := m.host.cancelSend sendId r.world
  (r.hear answer).note (.cancelSend sendId answer.1)

mutual
/-- Performs one action for the state `owner`: why it fails, if it does, and the run after
it. -/
def perform (owner : Nat) : Action → Run σ → Option ContentError × Run σ
  | .assign location expr, r => m.assign owner location expr r
  | .declare name expr, r => m.declare owner name expr r
  | .log label expr, r => m.log owner label expr r
  | .raise event, r => (none, r.raise (.signal event))
  | .send s, r => m.send owner s r
  | .cancel sendId, r => (none, m.cancelSend sendId r)
  | .choose branches otherwise, r =>
    match performFirst owner branches r with
    | some outcome => outcome
    | none => performAll owner otherwise r
/-- Performs actions in order, up to the first that fails. -/
def performAll (owner : Nat) : List Action → Run σ → Option ContentError × Run σ
  | [], r => (none, r)
  | action :: rest, r =>
    match perform owner action r with
    | (none, r) => performAll owner rest r
    | failed => failed
/-- Performs the first branch whose condition holds; `none` if there is none. A condition that
cannot be evaluated fails. -/
def performFirst (owner : Nat) :
    List Branch → Run σ → Option (Option ContentError × Run σ)
  | [], _ => none
  | .mk condition actions :: rest, r =>
    match m.evaluator.holds (m.viewOf r owner) condition with
    | .error e => some (some (.evaluation e), r)
    | .ok true => some (performAll owner actions r)
    | .ok false => performFirst owner rest r
end

/-- Runs a block of content for the state `owner`. -/
def runActions (owner : Nat) (actions : List Action) (r : Run σ) : Run σ :=
  match m.performAll owner actions r with
  | (none, r) => r
  | (some e, r) =>
    (r.report e.kind e.message (some (m.chart.idOf owner))).raise (.error e.eventName)

/-- Runs a block of content and notes its beginning. -/
def runBlock (block : Block) (owner : Nat) (actions : List Action) (r : Run σ) : Run σ :=
  m.runActions owner actions (r.note (.began block))

/-- Initialises variables in the scope of `owner`, or in the global scope. An expression that
fails is reported and leaves null. -/
def declareAll (owner : Option Nat) (data : List Data) (r : Run σ) : Run σ :=
  data.foldl
    (fun r d =>
      let scope := match owner with
        | some s => r.session.scopeOf m.chart s
        | none => Session.globalScope
      let (value, r) : Json.Value × Run σ := match d.expr with
        | some expr =>
          match m.evaluator.eval ⟨r.session.scopes, scope⟩ expr with
          | .ok value => (value, r)
          | .error e =>
            (.null,
              (r.report .expressionError e.message (owner.map m.chart.idOf)).raise
                (.error Event.errorExecution))
        | none => (d.value.getD .null, r)
      r.mapSession fun session =>
        { session with scopes := session.scopes.setLocal scope d.id value })
    r

/-- Initialises the variables of the chart and then those of every state, in document
order. -/
def initializeData (r : Run σ) : Run σ :=
  (m.chart.states.filter (fun s => !m.chart.isPseudo s)).foldl
    (fun r s => m.declareAll (some s) (m.chart.node s).data r)
    (m.declareAll none m.chart.data r)

end Interpreter

end Statechart
