import Statechart.Interpreter.Lifecycle
import Statechart.Snapshot.Basic

/-!
Restoring: a snapshot is checked against a chart and then loaded into a session, which forgets
everything else.
-/

namespace Statechart

/-- A snapshot with the ids of states looked up. -/
structure Resolved where
  /-- The active states in the order of entry. -/
  active : List Nat
  sessionId : SessionId
  histories : List (Nat × StateSet)
  completed : List Nat
  pendingInvokes : List Nat
  invokes : List (Nat × List String)
  contexts : List (Nat × Vars)

namespace Snapshot

def resolve (c : Chart) (id : String) : Except SnapshotError Nat :=
  match c.lookup id with
  | some s => .ok s
  | none => .error (.unknownState id)

def resolveAll (c : Chart) (ids : List String) : Except SnapshotError (List Nat) :=
  ids.mapM (resolve c)

def resolveKeys {α : Type} (c : Chart) (m : SortedMap String α) :
    Except SnapshotError (List (Nat × α)) :=
  m.entries.mapM fun e => do
    let s ← resolve c e.1
    .ok (s, e.2)

/-- Checks that states can be active together, and no others with them. -/
def checkActive (c : Chart) (active : List Nat) : Except SnapshotError Unit :=
  match active.find? c.isPseudo with
  | some s => .error (.pseudoState (c.idOf s))
  | none =>
    let atomic := StateSet.ofList (active.filter c.isAtomic)
    if c.closure atomic.members ≠ StateSet.ofList active then .error .notClosed
    else
      match c.violations atomic with
      | [] => .ok ()
      | violations => .error (.illegal violations)

/-- Looks up all ids of a snapshot, and checks it on the way. -/
def resolved (snap : Snapshot) (c : Chart) : Except SnapshotError Resolved := do
  snap.checkVersion
  let active ← resolveAll c snap.active
  checkActive c active
  let sessionId ← match SessionId.parse? snap.sessionId with
    | some id => .ok id
    | none => .error .invalidSessionId
  let histories ← snap.histories.entries.mapM fun e => do
    let h ← resolve c e.1
    let states ← resolveAll c e.2
    .ok (h, StateSet.ofList states)
  let completed ← resolveAll c snap.completed
  let pendingInvokes ← resolveAll c snap.pendingInvokes
  let invokes ← resolveKeys c snap.invokes
  let contexts ← resolveKeys c snap.contexts
  .ok ⟨c.entryOrder active, sessionId, histories, completed, pendingInvokes, invokes, contexts⟩

/-- Sets variables in one scope. -/
def loadVars (scope : Nat) (vars : Vars) (scopes : Scopes) : Scopes :=
  vars.entries.foldl (fun scopes e => scopes.setLocal scope e.1 e.2) scopes

/-- Loads what else there is, once the states are active. -/
def load (snap : Snapshot) (r : Resolved) (c : Chart) (session : Session) : Session :=
  let scopes := loadVars Session.globalScope snap.global session.scopes
  let scopes := r.contexts.foldl
    (fun scopes e => loadVars (session.scopeOf c e.1) e.2 scopes) scopes
  Session.publish
    { session with
      scopes := scopes
      histories := session.histories.insertAll r.histories
      completed := session.completed.insertAll r.completed
      invokes := SortedMap.ofList r.invokes
      pendingInvokes := session.pendingInvokes.insertAll r.pendingInvokes
      internal := snap.internalEvents
      running := snap.running
      sequence := snap.sequence } c

/-- Loads a snapshot into a session. A snapshot that fails its checks leaves the session as it
is; one that names an active state twice fails only after the session has been cleared. -/
def restoreInto (snap : Snapshot) (c : Chart) (shared : Bool) (session : Session) :
    Option SnapshotError × Session :=
  match snap.resolved c with
  | .error e => (some e, session)
  | .ok r =>
    let cleared := Session.fresh c shared r.sessionId
    match Configuration.changeAll (fun conf s => conf.enter c s) cleared.configuration
        r.active with
    | (some e, conf) => (some (.configuration e), { cleared with configuration := conf })
    | (none, conf) => (none, snap.load r c { cleared with configuration := conf })

end Snapshot

namespace Interpreter

variable {σ : Type} (m : Interpreter σ)

/-- The snapshot of the session of a run. -/
def snapshot (r : Run σ) (stamp : Stamp) : Snapshot :=
  r.session.snapshot m.chart stamp

/-- Cancels all services and loads a snapshot. When that fails the session is cleared and not
running. -/
def restore (snap : Snapshot) (r : Run σ) : Option SnapshotError × Run σ :=
  let r := m.cancelAllInvokes r
  match snap.restoreInto m.chart m.evaluator.sharesContext r.session with
  | (none, session) => (none, { r with session := session })
  | (some e, session) =>
    (some e,
      { r with session := Session.fresh m.chart m.evaluator.sharesContext session.id })

end Interpreter

end Statechart
