import Statechart.Chart.Ancestry

/-!
The way of a transition through the tree: up from its source to the innermost state that it
neither leaves nor enters, and down to its targets. What a transition leaves when it fires is
that way up, everything active below the source and, with a region, the regions beside it.
-/

namespace Statechart

structure Path where
  /-- The innermost state that is neither left nor entered; `none` at the top level. -/
  scope : Option Nat
  /-- The source and the states above it below the scope, innermost first. -/
  upward : List Nat
  /-- The targets and the states above them below the scope, outermost first. -/
  downward : List Nat
  regionsExited : List Nat
  regionsEntered : List Nat
  deriving DecidableEq

/-- Whether the transition leaves or enters a region. -/
def Path.crossesRegion (p : Path) : Bool :=
  !p.regionsExited.isEmpty || !p.regionsEntered.isEmpty

namespace Chart

/-- The scope of a transition with targets. An internal transition of a compound source into
itself has its source as scope. Otherwise the scope is the innermost state above source and
targets that is neither the source, nor a target, nor parallel: the regions of a parallel
state are left and entered together. -/
def scope (c : Chart) (t : Transition) : Option Nat :=
  if t.kind = .internal ∧ c.kind t.source = .compound ∧
      t.targets.all (fun target => c.isDescendant target t.source) then
    some t.source
  else do
    let common ← t.targets.foldlM c.lca t.source
    (c.branch common).find? fun s =>
      decide (c.kind s ≠ .parallel ∧ s ≠ t.source ∧ s ∉ t.targets)

/-- The part of `s` and the states above it that lies below `scope`. -/
def branchBelow (c : Chart) (scope : Option Nat) (s : Nat) : List Nat :=
  (c.branch s).takeWhile (fun a => decide (some a ≠ scope))

def path (c : Chart) (t : Transition) : Path :=
  if t.targets.isEmpty then ⟨some t.source, [], [], [], []⟩
  else
    let scope := c.scope t
    let upward := c.branchBelow scope t.source
    let downward := c.entryOrder (t.targets.flatMap (c.branchBelow scope)).eraseDups
    ⟨scope, upward, downward, upward.filter c.isRegion, downward.filter c.isRegion⟩

/-- Adds the states of a walk upward until `stop` or one that is known. -/
def mark (stop : Nat) : List Nat → StateSet → StateSet
  | [], known => known
  | s :: above, known =>
    if s = stop ∨ s ∈ known then known else mark stop above (known.insert s)

/-- Adds the active states below `top`, as far as the states `current` are below it. -/
def markBelow (c : Chart) (current : StateSet) (top : Nat) (known : StateSet) : StateSet :=
  current.members.foldl
    (fun known s => if c.isDescendant s top then mark top (c.branch s) known else known) known

/-- Adds `top` and the active states below it, if any of `current` is `top` or below it. -/
def markFrom (c : Chart) (current : StateSet) (top : Nat) (known : StateSet) : StateSet :=
  current.members.foldl
    (fun known s =>
      if s = top ∨ c.isDescendant s top then mark top (c.branch s) (known.insert top)
      else known)
    known

/-- The states that are left when `t` fires while the states without children that are active
are `current`. Without targets nothing is left. -/
def exitSet (c : Chart) (t : Transition) (current : StateSet) : StateSet :=
  if t.targets.isEmpty then ∅
  else
    let path := c.path t
    let below := c.markBelow current t.source (StateSet.ofList path.upward)
    path.regionsExited.foldl
      (fun known region =>
        match c.parent region with
        | none => known
        | some parallel =>
          (c.children parallel).foldl (fun known sibling => c.markFrom current sibling known)
            known)
      below

/-- Two transitions are in conflict when they would leave a state in common. -/
def inConflict (c : Chart) (t u : Transition) (current : StateSet) : Bool :=
  !(c.exitSet t current).isDisjoint (c.exitSet u current)

end Chart

end Statechart
