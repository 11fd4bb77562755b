import Statechart.Text.Quoted

/-!
What can be wrong with the outline of a chart, and why no chart or interpreter comes out of
it.
-/

namespace Statechart

/-- A structural problem of an outline. -/
inductive Problem where
  | duplicateId (id : String)
  | unresolvedTarget (state target : String)
  | illegalMultiTarget (state : String) (targets : List String)
  | illegalInitial (state target : String)
  | initialOnNonCompound (state : String)
  /-- A default of a history that is not one of the `expected` states of `parent`. -/
  | illegalHistoryDefault (history parent target expected : String)
  | historyOnAtomicState (history state : String)
  | finalWithChildren (state : String)
  | emptyParallel (state : String)
  | invokeWithoutType (state : String)
  deriving DecidableEq

def Problem.message : Problem → String
  | duplicateId id => "Duplicate state id '" ++ id ++ "'"
  | unresolvedTarget state target =>
    "Transition of '" ++ state ++ "' targets unknown state '" ++ target ++ "'"
  | illegalMultiTarget state targets =>
    "Targets " ++ Text.quoteList targets ++ " of '" ++ state ++ "' cannot be active together"
  | illegalInitial state target =>
    "Initial transition of '" ++ state ++ "' must target its descendants, found '" ++ target ++
      "'"
  | initialOnNonCompound state =>
    "State '" ++ state ++ "' has an initial transition but is not compound"
  | illegalHistoryDefault history parent target expected =>
    "Default of history '" ++ history ++ "' must target " ++ expected ++ " of '" ++ parent ++
      "', found '" ++ target ++ "'"
  | historyOnAtomicState history state =>
    "History '" ++ history ++ "' belongs to state '" ++ state ++ "' which has no children"
  | finalWithChildren state => "Final state '" ++ state ++ "' cannot have children"
  | emptyParallel state => "Parallel state '" ++ state ++ "' has no regions"
  | invokeWithoutType state => "Invoke in state '" ++ state ++ "' has no type"

/-- Why a configuration of the interpreter is refused. -/
inductive ConfigError where
  | unreadable
  | zeroMicrosteps
  deriving DecidableEq

def ConfigError.message : ConfigError → String
  | unreadable => "Invalid executor configuration"
  | zeroMicrosteps => "max_microsteps must be at least 1"

/-- Why no chart or no interpreter can be built. -/
inductive BuildError where
  | noStates
  | invalid (problems : List Problem)
  | missingEvaluator
  | incompatibleDatamodel (chart evaluator : String)
  | config (error : ConfigError)
  deriving DecidableEq

namespace BuildError

def message : BuildError → String
  | noStates => "Document has no states. Add at least one with .state(...)"
  | invalid problems =>
    "Document is invalid: " ++ "; ".intercalate (problems.map Problem.message)
  | missingEvaluator => "Evaluator not specified. Call .evaluator(...) before .build()"
  | incompatibleDatamodel chart evaluator =>
    "Document declares datamodel '" ++ chart ++ "' but the evaluator implements '" ++
      evaluator ++ "'"
  | config error => error.message

def problems : BuildError → List Problem
  | invalid problems => problems
  | _ => []

end BuildError

end Statechart
