import Statechart.Chart.Path
import Statechart.Session.Configuration

/-!
Expansion of targets into the states without children that become active. A compound state
leads to its default entry unless something inside it is entered anyway, a parallel state to
all its regions, a history to what it remembers or else to its default. Parallel states around
the states reached have their missing regions entered as well. Every node is expanded at most
once.
-/

namespace Statechart

structure Expansion where
  visited : StateSet
  /-- The states without children reached so far. -/
  targets : StateSet
  /-- The compound states entered by default. -/
  defaultEntry : StateSet
  /-- The histories that remembered nothing, with the default transition taken instead. -/
  historyDefaults : SortedMap Nat Nat
  /-- The compound states without a default entry, in the order in which they were met. -/
  lacking : List Nat
  deriving DecidableEq

namespace Expansion

def empty : Expansion := ⟨∅, ∅, ∅, ∅, []⟩

/-- Expands the node `s` while the nodes of `queue` wait: what is noted, and the nodes that `s`
leads to. -/
def expand (c : Chart) (histories : Histories) (queue : List Nat) (s : Nat) (e : Expansion) :
    Expansion × List Nat :=
  match c.kind s with
  | .simple | .final => ({ e with targets := e.targets.insert s }, [])
  | .compound =>
    if (queue ++ e.targets.members).any (fun a => c.isDescendant a s) then (e, [])
    else
      match c.defaultTransition? s with
      | some t =>
        ({ e with defaultEntry := e.defaultEntry.insert s }, (c.transition t).targets)
      | none => ({ e with lacking := e.lacking ++ [s] }, [])
  | .parallel => (e, c.children s)
  | .history _ =>
    match (histories.get? s).filter (fun states => !states.isEmpty) with
    | some states => (e, states.members)
    | none =>
      match (c.node s).transitions.head? with
      | some t =>
        ({ e with historyDefaults := e.historyDefaults.insert s t }, (c.transition t).targets)
      | none => (e, [])
  | .initial =>
    match (c.node s).transitions.head? with
    | some t => (e, (c.transition t).targets)
    | none => (e, [])

/-- The regions still to be entered: those of parallel states around the states that stay or
are reached, unless they are active then or were expanded already. -/
def missing (c : Chart) (residual : StateSet) (e : Expansion) : List Nat :=
  let covered := c.closure (residual.members ++ e.targets.members)
  ((covered.members.filter (fun s => decide (c.kind s = .parallel))).flatMap c.children).filter
    (fun region => decide (region ∉ covered ∧ region ∉ e.visited))

/-- The nodes still to be expanded. -/
def pending (c : Chart) (residual : StateSet) (queue : List Nat) (e : Expansion) : List Nat :=
  match queue.dropWhile (fun s => decide (s ∈ e.visited)) with
  | [] => e.missing c residual
  | rest => rest

/-- Expands the nodes of `queue` in turn, at most `steps` of them. -/
def drain (c : Chart) (histories : Histories) (residual : StateSet) :
    (steps : Nat) → (queue : List Nat) → Expansion → Expansion
  | 0, _, e => e
  | steps + 1, queue, e =>
    match e.pending c residual queue with
    | [] => e
    | s :: rest =>
      let (e, next) :=
        expand c histories rest s { e with visited := e.visited.insert s }
      drain c histories residual steps (rest ++ next) e

end Expansion

/-- Expands `seeds` while the states `residual` stay active. No node is expanded twice, so
there are at most as many steps as nodes. -/
def Chart.expand (c : Chart) (histories : Histories) (seeds : List Nat) (residual : StateSet) :
    Expansion :=
  Expansion.drain c histories residual c.nodes.size seeds .empty

/-- What transitions lead to while the states `residual` stay active: their targets, and then
the regions beside every region that they enter, unless something in them stays or is a
target. -/
def Chart.seeds (c : Chart) (residual : StateSet) (transitions : List Nat) : List Nat :=
  let targets := (transitions.flatMap (fun t => (c.transition t).targets)).eraseDups
  let regions := transitions.flatMap fun t =>
    (c.path (c.transition t)).regionsEntered.flatMap fun region =>
      match c.parent region with
      | some parallel => c.children parallel
      | none => []
  let covered := c.closure (residual.members ++ targets)
  (targets ++ regions.filter (fun region => decide (region ∉ covered))).eraseDups

end Statechart
