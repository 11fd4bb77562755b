import Statechart.Proofs.Chart.Faults
import Statechart.Proofs.Operations
import Statechart.Proofs.Replacing

/-!
Which snapshots are loaded. The checks come one after another and fail at the first defect, some
on lists and some on sets, and the last defect is found only while the session is written. Taken
together they accept the snapshots that are well formed, and of these the session that comes out
depends on nothing but the chart and whether all states share one scope.
-/

namespace Statechart

/-- One of the nodes has the id `id`. -/
def Chart.HasId (c : Chart) (id : String) : Prop :=
  ∃ s, s < c.nodes.size ∧ c.idOf s = id

namespace Snapshot

/-- The nodes that the snapshot calls active. -/
def activeIn (snap : Snapshot) (c : Chart) : StateSet :=
  StateSet.ofList (c.states.filter (fun s => decide (c.idOf s ∈ snap.active)))

/-- The snapshot is one of a session of the chart `c`, as far as can be seen from its ids and
from the states that are active. -/
structure Admissible (snap : Snapshot) (c : Chart) : Prop where
  version : snap.version = currentVersion
  active : ∀ id ∈ snap.active, c.HasId id
  histories : ∀ e ∈ snap.histories.entries, c.HasId e.1 ∧ ∀ id ∈ e.2, c.HasId id
  completed : ∀ id ∈ snap.completed, c.HasId id
  pendingInvokes : ∀ id ∈ snap.pendingInvokes, c.HasId id
  invokes : ∀ id ∈ snap.invokes.keys, c.HasId id
  contexts : ∀ id ∈ snap.contexts.keys, c.HasId id
  ordinary : ∀ s ∈ snap.activeIn c, c.isPseudo s = false
  nodup : snap.active.Nodup
  closed : c.closure ((snap.activeIn c).filter c.isAtomic).members = snap.activeIn c
  compound : ∀ s ∈ snap.activeIn c, c.kind s = .compound →
    ∃! x, x ∈ c.children s ∧ x ∈ snap.activeIn c
  parallel : ∀ s ∈ snap.activeIn c, c.kind s = .parallel →
    ∀ x ∈ c.children s, x ∈ snap.activeIn c
  top : ∀ s ∈ snap.activeIn c, ∀ t ∈ snap.activeIn c,
    c.parent s = none → c.parent t = none → s = t
  sessionId : (SessionId.parse? snap.sessionId).isSome

variable {c : Chart} {snap : Snapshot}

theorem mem_activeIn {s : Nat} :
    s ∈ snap.activeIn c ↔ s < c.nodes.size ∧ c.idOf s ∈ snap.active := by
  simp [activeIn, Chart.states]

section Succeeds

variable {ε α β : Type}

theorem bind_succeeds {x : Except ε α} {f : α → Except ε β} :
    (∃ b, x >>= f = .ok b) ↔ ∃ a, x = .ok a ∧ ∃ b, f a = .ok b := by
  constructor
  · rintro ⟨b, h⟩
    obtain ⟨a, ha, hb⟩ := exists_of_bind h
    exact ⟨a, ha, b, hb⟩
  · rintro ⟨a, rfl, b, hb⟩
    exact ⟨b, hb⟩

/-- A list is worked through if every member is. -/
theorem mapM_succeeds {f : α → Except ε β} {xs : List α} :
    (∃ ys, xs.mapM f = .ok ys) ↔ ∀ x ∈ xs, ∃ y, f x = .ok y := by
  induction xs with
  | nil => simpa using ⟨[], rfl⟩
  | cons x rest ih =>
    rw [List.mapM_cons, bind_succeeds, List.forall_mem_cons, ← ih]
    constructor
    · rintro ⟨y, hy, hrest⟩
      obtain ⟨ys, hys, -⟩ := bind_succeeds.1 hrest
      exact ⟨⟨y, hy⟩, ys, hys⟩
    · rintro ⟨⟨y, hy⟩, ys, hys⟩
      exact ⟨y, hy, bind_succeeds.2 ⟨ys, hys, y :: ys, rfl⟩⟩

end Succeeds

theorem checkVersion_succeeds :
    (∃ u, snap.checkVersion = .ok u) ↔ snap.version = currentVersion := by
  unfold checkVersion
  split <;> simp [*]

theorem resolve_succeeds (hw : c.WellFormed) {id : String} :
    (∃ s, resolve c id = .ok s) ↔ c.HasId id := by
  constructor
  · rintro ⟨s, h⟩
    exact ⟨s, lt_size_of_resolve h, Chart.idOf_of_lookup (lookup_of_resolve h)⟩
  · rintro ⟨s, hs, rfl⟩
    exact ⟨s, resolve_idOf hw hs⟩

theorem resolveAll_succeeds (hw : c.WellFormed) {ids : List String} :
    (∃ xs, resolveAll c ids = .ok xs) ↔ ∀ id ∈ ids, c.HasId id := by
  rw [resolveAll, mapM_succeeds]
  simp only [resolve_succeeds hw]

theorem resolveKeys_succeeds (hw : c.WellFormed) {α : Type} {m : SortedMap String α} :
    (∃ found, resolveKeys c m = .ok found) ↔ ∀ id ∈ m.keys, c.HasId id := by
  rw [resolveKeys, mapM_succeeds, SortedMap.keys, List.forall_mem_map]
  refine forall₂_congr fun e _ => ?_
  rw [← resolve_succeeds hw, bind_succeeds]
  simp

/-- The numbers that are looked up for the active states are those of the states with the ids. -/
theorem ofList_resolved (hw : c.WellFormed) {xs : List Nat}
    (h : resolveAll c snap.active = .ok xs) : StateSet.ofList xs = snap.activeIn c := by
  have hlookup := map_lookup_of_resolveAll h
  apply StateSet.ext
  intro s
  have hs : s ∈ xs ↔ ∃ id ∈ snap.active, c.lookup id = some s := by
    rw [← List.mem_map, hlookup]
    simp
  rw [StateSet.mem_ofList, hs, mem_activeIn]
  constructor
  · rintro ⟨id, hid, hlook⟩
    exact ⟨Chart.lt_size_of_lookup hlook, by rwa [Chart.idOf_of_lookup hlook]⟩
  · rintro ⟨hlt, hid⟩
    exact ⟨_, hid, c.lookup_idOf hw hlt⟩

/-- The check of the active states asks only for the set of them. -/
theorem checkActive_succeeds (hw : c.WellFormed) {xs : List Nat}
    (hsize : ∀ x ∈ xs, x < c.nodes.size) :
    (∃ u, checkActive c xs = .ok u) ↔
      (∀ s ∈ StateSet.ofList xs, c.isPseudo s = false) ∧
      c.closure ((StateSet.ofList xs).filter c.isAtomic).members = StateSet.ofList xs ∧
      c.Legal (StateSet.ofList xs) := by
  have hfilter : StateSet.ofList (xs.filter c.isAtomic) =
      (StateSet.ofList xs).filter c.isAtomic := by
    apply StateSet.ext
    intro s
    simp [List.mem_filter]
  have hatomic : c.AllAtomic ((StateSet.ofList xs).filter c.isAtomic) := by
    intro s hs
    obtain ⟨hmem, ha⟩ := StateSet.mem_filter.1 hs
    exact ⟨ha, hsize s (StateSet.mem_ofList.1 hmem)⟩
  have hfind : xs.find? c.isPseudo = none ↔
      ∀ s ∈ StateSet.ofList xs, c.isPseudo s = false := by
    simp [List.find?_eq_none]
  rw [checkActive, hfilter, ← hfind]
  cases hx : xs.find? c.isPseudo with
  | some s => simp
  | none =>
    dsimp only
    by_cases hclosed :
      c.closure ((StateSet.ofList xs).filter c.isAtomic).members = StateSet.ofList xs
    · have hlegal := hw.violations_eq_nil_iff hatomic
      rw [hclosed] at hlegal
      rw [if_neg (not_not.2 hclosed), ← hlegal]
      cases c.violations ((StateSet.ofList xs).filter c.isAtomic) <;> simp [hclosed]
    · simp [hclosed]

theorem resolveHistories_succeeds (hw : c.WellFormed) {m : SortedMap String (List String)} :
    (∃ found, m.entries.mapM (resolveHistory c) = .ok found) ↔
      ∀ e ∈ m.entries, c.HasId e.1 ∧ ∀ id ∈ e.2, c.HasId id := by
  rw [mapM_succeeds]
  refine forall₂_congr fun e _ => ?_
  rw [resolveHistory, bind_succeeds, ← resolve_succeeds hw, ← resolveAll_succeeds hw]
  simp only [bind_succeeds]
  simp

/-- The checks together. -/
theorem resolved_succeeds (hw : c.WellFormed) : (∃ found, snap.resolved c = .ok found) ↔
    snap.version = currentVersion ∧
    (∃ xs, resolveAll c snap.active = .ok xs ∧ ∃ u, checkActive c xs = .ok u) ∧
    (SessionId.parse? snap.sessionId).isSome ∧
    (∀ e ∈ snap.histories.entries, c.HasId e.1 ∧ ∀ id ∈ e.2, c.HasId id) ∧
    (∀ id ∈ snap.completed, c.HasId id) ∧ (∀ id ∈ snap.pendingInvokes, c.HasId id) ∧
    (∀ id ∈ snap.invokes.keys, c.HasId id) ∧ ∀ id ∈ snap.contexts.keys, c.HasId id := by
  simp only [resolved_eq_ok_iff]
  rw [← checkVersion_succeeds, ← resolveHistories_succeeds hw, ← resolveAll_succeeds hw,
    ← resolveAll_succeeds hw, ← resolveKeys_succeeds hw, ← resolveKeys_succeeds hw,
    Option.isSome_iff_exists]
  constructor
  · rintro ⟨found, h⟩
    obtain ⟨xs, hxs, hcheck, -⟩ := h.active
    exact ⟨⟨_, h.version⟩, ⟨xs, hxs, _, hcheck⟩, ⟨_, h.sessionId⟩, ⟨_, h.histories⟩,
      ⟨_, h.completed⟩, ⟨_, h.pendingInvokes⟩, ⟨_, h.invokes⟩, ⟨_, h.contexts⟩⟩
  · rintro ⟨⟨_, hversion⟩, ⟨xs, hxs, _, hcheck⟩, ⟨id, hid⟩, ⟨histories, hhistories⟩,
      ⟨completed, hcompleted⟩, ⟨pending, hpending⟩, ⟨invokes, hinvokes⟩, ⟨contexts, hcontexts⟩⟩
    exact ⟨⟨c.entryOrder xs, id, histories, completed, pending, invokes, contexts⟩, hversion,
      ⟨xs, hxs, hcheck, rfl⟩, hid, hhistories, hcompleted, hpending, hinvokes, hcontexts⟩

/-- Given what the ids name, the check of the active states asks for what a well-formed snapshot
is required to be. -/
theorem active_succeeds (hw : c.WellFormed) :
    (∃ xs, resolveAll c snap.active = .ok xs ∧ ∃ u, checkActive c xs = .ok u) ↔
      (∀ id ∈ snap.active, c.HasId id) ∧ (∀ s ∈ snap.activeIn c, c.isPseudo s = false) ∧
      c.closure ((snap.activeIn c).filter c.isAtomic).members = snap.activeIn c ∧
      c.Legal (snap.activeIn c) := by
  rw [← resolveAll_succeeds hw]
  constructor
  · rintro ⟨xs, hxs, hcheck⟩
    rw [checkActive_succeeds hw (lt_size_of_resolveAll hxs), ofList_resolved hw hxs] at hcheck
    exact ⟨⟨xs, hxs⟩, hcheck⟩
  · rintro ⟨⟨xs, hxs⟩, hcheck⟩
    rw [← ofList_resolved hw hxs] at hcheck
    exact ⟨xs, hxs, (checkActive_succeeds hw (lt_size_of_resolveAll hxs)).2 hcheck⟩

/-- A snapshot is loaded if it passes the checks and names no active state twice. -/
theorem restoreInto_succeeds {shared : Bool} {session : Session} :
    (snap.restoreInto c shared session).1 = none ↔
      snap.active.Nodup ∧ ∃ found, snap.resolved c = .ok found := by
  cases hfound : snap.resolved c with
  | error e => simp [restoreInto_of_not_resolved hfound]
  | ok found =>
    by_cases hnodup : snap.active.Nodup
    · obtain ⟨conf, hload⟩ := restoreInto_of_nodup hfound hnodup shared session
      simp [hload, hnodup]
    · obtain ⟨hactive, hpseudo⟩ := active_resolved hfound
      obtain ⟨before, s, after, -, -, -, hchange⟩ :=
        c.changeAll_enter_repeated (fun h => hnodup (hactive.1 h)) hpseudo
      have hfresh : (Session.fresh c shared found.sessionId).configuration = .empty := rfl
      rw [restoreInto, hfound]
      simp [hfresh, hchange, hnodup]

/-- Once a snapshot is loaded the states that it names are active. -/
theorem active_restoreInto (hw : c.WellFormed) {shared : Bool} {session : Session}
    (h : (snap.restoreInto c shared session).1 = none) :
    (snap.restoreInto c shared session).2.configuration.active = snap.activeIn c := by
  obtain ⟨hnodup, found, hfound⟩ := restoreInto_succeeds.1 h
  obtain ⟨xs, hxs, -, horder⟩ := (resolved_eq_ok_iff.1 hfound).active
  obtain ⟨hactive, hpseudo⟩ := active_resolved hfound
  obtain ⟨conf, hconf⟩ := Chart.changeAll_enter c .empty (hactive.2 hnodup)
    (fun s hs => ⟨hpseudo s hs, StateSet.not_mem_empty s⟩)
  have hfresh : (Session.fresh c shared found.sessionId).configuration = .empty := rfl
  have hload : (snap.restoreInto c shared session).2.configuration = conf := by
    rw [restoreInto, hfound]
    simp only [hfresh, hconf]
    rfl
  rw [hload, ← ofList_resolved hw hxs]
  apply StateSet.ext
  intro x
  rw [Configuration.mem_changeAll_enter hconf, horder, Chart.mem_entryOrder, StateSet.mem_ofList]
  exact or_iff_right (StateSet.not_mem_empty x)

theorem allAtomic_activeIn (snap : Snapshot) (c : Chart) :
    c.AllAtomic ((snap.activeIn c).filter c.isAtomic) := by
  intro s hs
  obtain ⟨hmem, ha⟩ := StateSet.mem_filter.1 hs
  exact ⟨ha, (mem_activeIn.1 hmem).1⟩

theorem Admissible.legal (hw : c.WellFormed) (h : snap.Admissible c) :
    c.Legal (snap.activeIn c) := by
  have hlegal := hw.legal_closure_iff (allAtomic_activeIn snap c)
  rw [h.closed] at hlegal
  exact hlegal.2 ⟨h.compound, h.parallel, h.top⟩

theorem admissible_iff (hw : c.WellFormed) :
    snap.Admissible c ↔ snap.active.Nodup ∧ ∃ found, snap.resolved c = .ok found := by
  rw [resolved_succeeds hw, active_succeeds hw]
  constructor
  · intro h
    exact ⟨h.nodup, h.version, ⟨h.active, h.ordinary, h.closed, h.legal hw⟩, h.sessionId,
      h.histories, h.completed, h.pendingInvokes, h.invokes, h.contexts⟩
  · rintro ⟨hnodup, hversion, ⟨hactive, hordinary, hclosed, hl⟩, hid, hhistories, hcompleted,
      hpending, hinvokes, hcontexts⟩
    exact ⟨hversion, hactive, hhistories, hcompleted, hpending, hinvokes, hcontexts, hordinary,
      hnodup, hclosed, fun s hs hk => hl.compound hs hk, fun s hs hk => hl.parallel hs hk,
      fun s hs t ht hps hpt => hl.top hs ht hps hpt, hid⟩

/-- What was in the session before is in no session that a snapshot is loaded into. -/
theorem restoreInto_eq {shared : Bool} {session : Session} (other : Session)
    (h : (snap.restoreInto c shared session).1 = none) :
    snap.restoreInto c shared other = snap.restoreInto c shared session := by
  obtain ⟨-, found, hfound⟩ := restoreInto_succeeds.1 h
  rw [restoreInto, restoreInto, hfound]

end Snapshot

namespace Interpreter

variable {σ : Type} {m : Interpreter σ} {snap : Snapshot} {r : Run σ}

theorem restore_eq_none : (m.restore snap r).1 = none ↔
    (snap.restoreInto m.chart m.evaluator.sharesContext (m.cancelAllInvokes r).session).1 =
      none := by
  unfold restore
  dsimp only
  split <;> simp [*]

theorem session_restore (h : (m.restore snap r).1 = none) : (m.restore snap r).2.session =
    (snap.restoreInto m.chart m.evaluator.sharesContext (m.cancelAllInvokes r).session).2 := by
  have hloaded := restore_eq_none.1 h
  unfold restore
  dsimp only
  split
  · next hload => rw [hload]
  · next hload =>
    rw [hload] at hloaded
    cases hloaded

/-- What is loaded is published. -/
theorem status_restore (h : (m.restore snap r).1 = none) :
    (m.restore snap r).2.session.status =
      Status.capture m.chart (m.restore snap r).2.session.configuration
        (m.restore snap r).2.session.internal.length := by
  obtain ⟨hnodup, found, hfound⟩ := Snapshot.restoreInto_succeeds.1 (restore_eq_none.1 h)
  obtain ⟨conf, hload⟩ := Snapshot.restoreInto_of_nodup hfound hnodup
    m.evaluator.sharesContext (m.cancelAllInvokes r).session
  rw [session_restore h, hload]
  rfl

/-- A session that a snapshot could not be loaded into is only laid out. -/
theorem session_restore_fails {e : SnapshotError} (h : (m.restore snap r).1 = some e) :
    ∃ id, (m.restore snap r).2.session =
      Session.fresh m.chart m.evaluator.sharesContext id := by
  unfold restore at h ⊢
  dsimp only at h ⊢
  split at h
  · cases h
  · exact ⟨_, rfl⟩

theorem running_restore_fails {e : SnapshotError} (h : (m.restore snap r).1 = some e) :
    (m.restore snap r).2.session.running = false := by
  obtain ⟨id, hsession⟩ := session_restore_fails h
  rw [hsession]
  rfl

/-- A snapshot is loaded exactly if it is well formed. The session that then comes out is the
same whatever happened before, and in every interpreter of the chart whose evaluator gives the
states scopes of their own in the same way. -/
theorem restore_succeeds {o : Outline} (hbuild : o.build = .ok m.chart) (snap : Snapshot)
    (r : Run σ) :
    ((m.restore snap r).1 = none ↔ snap.Admissible m.chart) ∧
    ((m.restore snap r).1 = none → ∀ {τ : Type} (m' : Interpreter τ) (r' : Run τ),
      m'.chart = m.chart → m'.evaluator.sharesContext = m.evaluator.sharesContext →
      (m'.restore snap r').1 = none ∧
        (m'.restore snap r').2.session = (m.restore snap r).2.session) := by
  have hw := (Outline.wellFormed_of_build hbuild).1
  refine ⟨?_, ?_⟩
  · rw [restore_eq_none, Snapshot.restoreInto_succeeds, Snapshot.admissible_iff hw]
  · intro h τ m' r' hchart hshares
    have hsame := Snapshot.restoreInto_eq (m'.cancelAllInvokes r').session (restore_eq_none.1 h)
    have h' : (m'.restore snap r').1 = none := by
      rw [restore_eq_none, hchart, hshares, hsame]
      exact restore_eq_none.1 h
    exact ⟨h', by rw [session_restore h', session_restore h, hchart, hshares, hsame]⟩

/-- The snapshot of a playing player. -/
def playerSnapshot : Snapshot :=
  player.snapshot playerRun ⟨"noon", ⟨19000, 0, 0⟩⟩

/-- The snapshot of a playing player is well formed, and is loaded after a run as it is into a new
session. -/
theorem restore_succeeds_player :
    playerSnapshot.Admissible player.chart ∧
      (player.restore playerSnapshot (Run.new secondId ())).2.session =
        (player.restore playerSnapshot playerRun).2.session := by
  have hnone : (player.restore playerSnapshot playerRun).1 = none := by decide +kernel
  obtain ⟨hadmissible, hsame⟩ :=
    restore_succeeds (m := player) Outline.build_player playerSnapshot playerRun
  exact ⟨hadmissible.1 hnone, (hsame hnone player (Run.new secondId ()) rfl rfl).2⟩

end Interpreter

end Statechart
