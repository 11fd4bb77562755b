import Statechart.Json.Value

/-!
Variable scopes. A scope has variables of its own and may have a parent; what it does not
declare is looked up in its parent, then in the parent of that, and so on. Scopes are numbered
in the order of their creation, so a parent has a smaller number than its children.
-/

namespace Statechart

abbrev Vars := SortedMap String Json.Value

structure Frame where
  parent : Option Nat
  vars : Vars

structure Scopes where
  frames : List Frame

namespace Scopes

def empty : Scopes := ⟨[]⟩

instance : Inhabited Scopes := ⟨empty⟩

/-- A new scope without variables and its number. A parent must exist already. -/
def create (scopes : Scopes) (parent : Option Nat) : Nat × Scopes :=
  let number := scopes.frames.length
  (number, ⟨scopes.frames ++ [⟨parent.filter (· < number), ∅⟩]⟩)

def frame? (scopes : Scopes) (scope : Nat) : Option Frame :=
  scopes.frames[scope]?

def parent (scopes : Scopes) (scope : Nat) : Option Nat :=
  (scopes.frame? scope).bind Frame.parent

/-- The variables that `scope` itself declares. -/
def vars (scopes : Scopes) (scope : Nat) : Vars :=
  ((scopes.frame? scope).map Frame.vars).getD ∅

/-- `scope` and the scopes around it, innermost first, as far as `steps` steps lead. -/
def walk (scopes : Scopes) : (steps : Nat) → Nat → List Nat
  | 0, scope => [scope]
  | steps + 1, scope =>
    scope :: match scopes.parent scope with
      | none => []
      | some p => walk scopes steps p

/-- `scope` and the scopes around it, innermost first. -/
def chain (scopes : Scopes) (scope : Nat) : List Nat :=
  scopes.walk scope scope

def hasLocal (scopes : Scopes) (scope : Nat) (name : String) : Bool :=
  (scopes.vars scope).contains name

/-- The innermost scope that declares `name`, seen from `scope`. -/
def holder? (scopes : Scopes) (scope : Nat) (name : String) : Option Nat :=
  (scopes.chain scope).find? (fun s => scopes.hasLocal s name)

def get? (scopes : Scopes) (scope : Nat) (name : String) : Option Json.Value :=
  (scopes.chain scope).findSome? (fun s => (scopes.vars s).get? name)

def has (scopes : Scopes) (scope : Nat) (name : String) : Bool :=
  (scopes.get? scope name).isSome

def modifyVars (scopes : Scopes) (scope : Nat) (f : Vars → Vars) : Scopes :=
  ⟨scopes.frames.modify scope (fun frame => { frame with vars := f frame.vars })⟩

/-- Declares or overwrites `name` in `scope` itself. -/
def setLocal (scopes : Scopes) (scope : Nat) (name : String) (value : Json.Value) : Scopes :=
  scopes.modifyVars scope (·.insert name value)

/-- Assigns where `name` is declared, or declares it in `scope`. -/
def set (scopes : Scopes) (scope : Nat) (name : String) (value : Json.Value) : Scopes :=
  scopes.setLocal ((scopes.holder? scope name).getD scope) name value

def removeLocal (scopes : Scopes) (scope : Nat) (name : String) : Scopes :=
  scopes.modifyVars scope (·.erase name)

/-- Drops all variables of `scope`. -/
def reset (scopes : Scopes) (scope : Nat) : Scopes :=
  scopes.modifyVars scope (fun _ => ∅)

end Scopes

/-- What an expression sees: one scope and those around it. -/
structure View where
  scopes : Scopes
  scope : Nat

namespace View

def get? (v : View) (name : String) : Option Json.Value :=
  v.scopes.get? v.scope name

def has (v : View) (name : String) : Bool :=
  v.scopes.has v.scope name

def vars (v : View) : Vars :=
  v.scopes.vars v.scope

def parent? (v : View) : Option View :=
  (v.scopes.parent v.scope).map (fun p => ⟨v.scopes, p⟩)

/-- The view and the views around it, innermost first. -/
def outward (v : View) : List View :=
  (v.scopes.chain v.scope).map (fun s => ⟨v.scopes, s⟩)

end View

namespace SystemVariable

/-- The id of the session. -/
def sessionId : String := "_sessionid"

/-- The name of the chart. -/
def name : String := "_name"

/-- The event that is being processed. -/
def event : String := "_event"

/-- The ids of all active states. -/
def allStates : String := "_ALL_STATES"

end SystemVariable

/-- Whether content may read `name` but not assign to it. -/
def isSystemVariable (name : String) : Bool :=
  name == SystemVariable.sessionId || name == SystemVariable.name ||
    name == SystemVariable.event || name == SystemVariable.allStates

end Statechart
