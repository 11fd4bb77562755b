import Statechart.Chart.Ancestry
import Statechart.SortedMap

/-!
Configurations: the states that are active, the view of them before and after a step, and what
histories remember of them.
-/

namespace Statechart

/-- A configuration is asked to change in a way it cannot. -/
inductive ConfigurationError where
  | alreadyActive (id : String)
  | notActive (id : String)
  | pseudoState (id : String)
  deriving DecidableEq

def ConfigurationError.message : ConfigurationError → String
  | alreadyActive id => "State '" ++ id ++ "' is already active"
  | notActive id => "State '" ++ id ++ "' is not active"
  | pseudoState id => "Pseudo-state '" ++ id ++ "' cannot be part of a configuration"

structure Configuration where
  active : StateSet
  deriving DecidableEq

namespace Configuration

def empty : Configuration := ⟨∅⟩

instance : Inhabited Configuration := ⟨empty⟩

/-- The active states without children. -/
def atomic (conf : Configuration) (c : Chart) : StateSet :=
  conf.active.filter c.isAtomic

def enter (conf : Configuration) (c : Chart) (s : Nat) :
    Except ConfigurationError Configuration :=
  if c.isPseudo s then .error (.pseudoState (c.idOf s))
  else if s ∈ conf.active then .error (.alreadyActive (c.idOf s))
  else .ok ⟨conf.active.insert s⟩

def exit (conf : Configuration) (c : Chart) (s : Nat) :
    Except ConfigurationError Configuration :=
  if s ∈ conf.active then .ok ⟨conf.active.erase s⟩
  else .error (.notActive (c.idOf s))

/-- Makes one change after the other, up to the first that fails: the configuration so far, and
why it is not complete. -/
def changeAll (change : Configuration → Nat → Except ConfigurationError Configuration) :
    Configuration → List Nat → Option ConfigurationError × Configuration
  | conf, [] => (none, conf)
  | conf, s :: rest =>
    match change conf s with
    | .ok conf => changeAll change conf rest
    | .error e => (some e, conf)

/-- Leaves the states of `exits` and then enters those of `entries`, in order. -/
def move (conf : Configuration) (c : Chart) (exits entries : List Nat) :
    Option ConfigurationError × Configuration :=
  match changeAll (fun conf s => conf.exit c s) conf exits with
  | (none, conf) => changeAll (fun conf s => conf.enter c s) conf entries
  | failed => failed

end Configuration

/-- A configuration as it is seen between two steps. -/
structure Status where
  /-- The active states without children. -/
  states : StateSet
  /-- The active states and all states above them. -/
  all : StateSet
  /-- The final state at the top level in which the session rests, if it does. -/
  final : Option Nat
  /-- The number of internal events that wait. -/
  pending : Nat
  deriving DecidableEq

namespace Status

def empty : Status := ⟨∅, ∅, none, 0⟩

instance : Inhabited Status := ⟨empty⟩

def capture (c : Chart) (conf : Configuration) (pending : Nat) : Status :=
  let states := conf.atomic c
  { states := states
    all := c.closure states.members
    final := match states.members with
      | [s] => if c.kind s = .final ∧ c.parent s = none then some s else none
      | _ => none
    pending := pending }

/-- The session is in a final state at the top level and has nothing left to do. -/
def isFinal (s : Status) : Bool :=
  s.final.isSome && decide (s.pending = 0)

end Status

/-- What every history remembers: the states that were active when its parent was left. -/
abbrev Histories := SortedMap Nat StateSet

namespace Histories

/-- What the history `h` of the state `s` remembers when `s` is left. -/
def remembered (c : Chart) (s : Nat) (depth : HistoryDepth) (before : Status) : StateSet :=
  match depth with
  | .deep => before.states.filter (fun a => c.isDescendant a s)
  | .shallow => StateSet.ofList ((c.children s).filter (fun a => decide (a ∈ before.all)))

/-- Records the histories of the state `s`, which is being left. -/
def recordExit (histories : Histories) (c : Chart) (s : Nat) (before : Status) : Histories :=
  (c.node s).histories.foldl
    (fun histories h =>
      match c.kind h with
      | .history depth => histories.insert h (remembered c s depth before)
      | _ => histories)
    histories

end Histories

end Statechart
