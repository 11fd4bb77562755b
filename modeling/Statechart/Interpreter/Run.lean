import Statechart.Chart.Legality
import Statechart.Config
import Statechart.Datamodel.Evaluator
import Statechart.Host.Basic
import Statechart.Report
import Statechart.Session.Basic

/-!
An interpreter is a chart with an evaluator, a host and settings. What it works on is a run: a
session, the external events that wait for it, the state of its host, and a journal of
everything that happens, in order.
-/

namespace Statechart

/-- A block of executable content, by the occasion on which it runs. -/
inductive Block where
  | exit (state : Nat)
  | transition (transition : Nat)
  | entry (state : Nat)
  /-- The content of the default entry of a compound state. -/
  | initial (state : Nat)
  /-- The content of the default of a history, which runs for the parent of the history. -/
  | history (history : Nat)
  deriving DecidableEq

/-- Something that happens during a run. -/
inductive Entry where
  | report (report : Report)
  /-- A log action: its label, the id of its state, and its text. -/
  | log (label : Option String) (state text : String)
  | send (request : SendRequest) (reply : Reply DispatchError)
  | cancelSend (sendId : String) (reply : Reply Empty)
  | startInvoke (request : InvokeRequest) (reply : Reply InvokeError)
  | cancelInvoke (invokeId : String) (reply : Reply InvokeError)
  /-- An event is appended to the internal queue. -/
  | raised (event : Event)
  /-- An internal event is handed to a microstep. -/
  | taken (event : Event)
  /-- The guard of a transition is evaluated. -/
  | guarded (transition : Nat)
  /-- A block of content begins. -/
  | began (block : Block)

structure Run (σ : Type) where
  session : Session
  /-- The external events that wait, oldest first. -/
  queue : List Event
  world : σ
  /-- What has happened, newest first. -/
  journal : List Entry

namespace Run

variable {σ : Type}

/-- The run of a new session, in the given state of the host. -/
def new (id : SessionId) (world : σ) : Run σ :=
  ⟨Session.new id, [], world, []⟩

def note (r : Run σ) (e : Entry) : Run σ :=
  { r with journal := e :: r.journal }

def report (r : Run σ) (kind : ReportKind) (message : String) (related : Option String) :
    Run σ :=
  r.note (.report ⟨kind, message, related⟩)

def mapSession (r : Run σ) (f : Session → Session) : Run σ :=
  { r with session := f r.session }

def raise (r : Run σ) (e : Event) : Run σ :=
  (r.mapSession (·.raise e)).note (.raised e)

/-- Takes in the new state of the host and the events that it lets in. -/
def hear {ε : Type} (r : Run σ) (answer : Reply ε × σ) : Run σ :=
  { r with world := answer.2, queue := r.queue ++ answer.1.arrivals }

/-- What has happened, oldest first. -/
def story (r : Run σ) : List Entry :=
  r.journal.reverse

end Run

/-- Why a step, and with it the session, comes to an end. -/
inductive StepError where
  | configuration (error : ConfigurationError)
  | illegalConfiguration (violations : List Violation)
  deriving DecidableEq

def StepError.message : StepError → String
  | configuration error => "Configuration update failed: " ++ error.message
  | illegalConfiguration violations =>
    "Step produced an illegal configuration: " ++ Violation.summary violations

structure Interpreter (σ : Type) where
  chart : Chart
  evaluator : Evaluator
  host : Host σ
  config : Config

namespace Interpreter

/-- An interpreter for a chart. The evaluator must understand the datamodel that the chart is
written for. -/
def build {σ : Type} (chart : Chart) (evaluator : Option Evaluator) (host : Host σ)
    (config : Config) : Except BuildError (Interpreter σ) :=
  match evaluator with
  | none => .error .missingEvaluator
  | some evaluator =>
    match config.validate with
    | .error e => .error (.config e)
    | .ok () =>
      match chart.datamodel.filter (fun declared => declared != evaluator.datamodel) with
      | some declared => .error (.incompatibleDatamodel declared evaluator.datamodel)
      | none => .ok ⟨chart, evaluator, host, config⟩

end Interpreter

end Statechart
