/-!
Reports: problems that an interpreter meets and goes on after.
-/

namespace Statechart

inductive ReportKind where
  | noInitial | illegalConfig | nonDeterministic | undefinedVariable | expressionError
  | executionError | communicationError | invokerError | loopLimit
  deriving DecidableEq

def ReportKind.label : ReportKind → String
  | noInitial => "NO_INITIAL"
  | illegalConfig => "ILLEGAL_CONFIG"
  | nonDeterministic => "NON_DETERMINISTIC"
  | undefinedVariable => "UNDEFINED_VARIABLE"
  | expressionError => "EXPRESSION_ERROR"
  | executionError => "EXECUTION_ERROR"
  | communicationError => "COMMUNICATION_ERROR"
  | invokerError => "INVOKER_ERROR"
  | loopLimit => "LOOP_LIMIT"

structure Report where
  kind : ReportKind
  message : String
  /-- The id of the state that the problem is about, if there is one. -/
  related : Option String
  deriving DecidableEq

/-- How many of `reports` are of the given kind. -/
def Report.count (kind : ReportKind) (reports : List Report) : Nat :=
  reports.countP (fun r => decide (r.kind = kind))

end Statechart
