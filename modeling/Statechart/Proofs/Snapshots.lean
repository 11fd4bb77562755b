import Statechart.Proofs.SessionIds
import Statechart.Proofs.Sessions
import Statechart.Snapshot.Restore

/-!
Snapshots and sessions. What is written by id is found again under its number, so that loading
a snapshot brings back the session it was taken of; and whatever snapshot is loaded, the session
that comes out is sound.
-/

namespace Statechart

namespace Snapshot

variable {c : Chart}

theorem resolve_idOf (hw : c.WellFormed) {s : Nat} (hs : s < c.nodes.size) :
    resolve c (c.idOf s) = .ok s := by
  rw [resolve, c.lookup_idOf hw hs]

theorem lt_size_of_resolve {id : String} {s : Nat} (h : resolve c id = .ok s) :
    s < c.nodes.size := by
  unfold resolve at h
  split at h
  · next t ht =>
    obtain rfl := Except.ok.inj h
    exact Chart.lt_size_of_lookup ht
  · cases h

section MapM

variable {ε α β : Type} {f : α → Except ε β}

theorem mapM_of_forall₂ {xs : List α} {ys : List β}
    (h : List.Forall₂ (fun x y => f x = .ok y) xs ys) : xs.mapM f = .ok ys := by
  induction h with
  | nil => rfl
  | cons hx _ ih =>
    rw [List.mapM_cons, hx, ih]
    rfl

theorem exists_of_mapM {xs : List α} {ys : List β} (h : xs.mapM f = .ok ys) :
    ∀ y ∈ ys, ∃ x ∈ xs, f x = .ok y := by
  induction xs generalizing ys with
  | nil =>
    obtain rfl : [] = ys := Except.ok.inj h
    exact fun y hy => absurd hy List.not_mem_nil
  | cons x rest ih =>
    rw [List.mapM_cons] at h
    cases hx : f x with
    | error e =>
      rw [hx] at h
      cases h
    | ok z =>
      cases hrest : rest.mapM f with
      | error e =>
        rw [hx, hrest] at h
        cases h
      | ok zs =>
        rw [hx, hrest] at h
        obtain rfl : z :: zs = ys := Except.ok.inj h
        intro y hy
        rcases List.mem_cons.1 hy with rfl | hy
        · exact ⟨x, by simp, hx⟩
        · obtain ⟨w, hw, hwy⟩ := ih hrest y hy
          exact ⟨w, List.mem_cons_of_mem x hw, hwy⟩

end MapM

theorem resolveAll_idsOf (hw : c.WellFormed) {xs : List Nat} (h : ∀ x ∈ xs, x < c.nodes.size) :
    resolveAll c (c.idsOf xs) = .ok xs := by
  unfold resolveAll Chart.idsOf
  induction xs with
  | nil => rfl
  | cons x rest ih =>
    rw [List.map_cons, List.mapM_cons, resolve_idOf hw (h x (by simp)),
      ih (fun y hy => h y (List.mem_cons_of_mem x hy))]
    rfl

theorem lt_size_of_resolveAll {ids : List String} {xs : List Nat}
    (h : resolveAll c ids = .ok xs) : ∀ x ∈ xs, x < c.nodes.size := by
  intro x hx
  obtain ⟨id, -, hid⟩ := exists_of_mapM h x hx
  exact lt_size_of_resolve hid

/-- Entries written by id are found again under their numbers, in some order. -/
theorem mapM_keyedById {α β : Type} (hw : c.WellFormed) {entries : List (Nat × β)}
    (hlt : ∀ e ∈ entries, e.1 < c.nodes.size) (hkeys : (entries.map Prod.fst).Nodup)
    {look : String × α → Except SnapshotError (Nat × β)} {stored : List (Nat × α)}
    (hstored : List.Forall₂ (fun f e => f.1 = e.1 ∧ look (c.idOf e.1, f.2) = .ok e) stored
      entries) :
    ∃ found, (c.keyedById stored).entries.mapM look = .ok found ∧ found.Perm entries := by
  have hsame : (stored.map (fun e => (c.idOf e.1, e.2))).map Prod.fst =
      (entries.map Prod.fst).map c.idOf := by
    clear hlt hkeys
    induction hstored with
    | nil => rfl
    | cons h _ ih => simp_all
  have hids : ((stored.map (fun e => (c.idOf e.1, e.2))).map Prod.fst).Nodup := by
    rw [hsame]
    apply hkeys.map_on
    intro s hs t ht heq
    obtain ⟨e, he, rfl⟩ := List.mem_map.1 hs
    obtain ⟨f, hf, rfl⟩ := List.mem_map.1 ht
    exact hw.idOf_injective (hlt e he) (hlt f hf) heq
  have hlook : List.Forall₂ (fun f e => look f = .ok e)
      (stored.map (fun e => (c.idOf e.1, e.2))) entries := by
    rw [List.forall₂_map_left_iff]
    apply hstored.imp
    rintro f e ⟨hfe, hf⟩
    rw [hfe]
    exact hf
  obtain ⟨found, hfound, hperm⟩ :=
    List.perm_comp_forall₂ (SortedMap.entries_ofList_perm hids) hlook
  exact ⟨found, mapM_of_forall₂ hfound, hperm⟩

theorem resolveKeys_keyedById {α : Type} (hw : c.WellFormed) {entries : List (Nat × α)}
    (hlt : ∀ e ∈ entries, e.1 < c.nodes.size) (hkeys : (entries.map Prod.fst).Nodup) :
    ∃ found, resolveKeys c (c.keyedById entries) = .ok found ∧ found.Perm entries := by
  refine mapM_keyedById hw hlt hkeys (List.forall₂_same.2 ?_)
  intro e he
  refine ⟨rfl, ?_⟩
  rw [resolve_idOf hw (hlt e he)]
  rfl

@[simp] theorem shape_loadVars (scope : Nat) (vars : Vars) (scopes : Scopes) :
    (loadVars scope vars scopes).shape = scopes.shape := by
  unfold loadVars
  induction vars.entries generalizing scopes with
  | nil => rfl
  | cons e rest ih => exact (ih _).trans (Scopes.shape_setLocal _ _ _)

theorem length_loadVars (scope : Nat) (vars : Vars) (scopes : Scopes) :
    (loadVars scope vars scopes).frames.length = scopes.frames.length := by
  rw [← Scopes.length_shape, shape_loadVars, Scopes.length_shape]

theorem vars_loadVars_of_ne {scope n : Nat} (hn : n ≠ scope) (vars : Vars) (scopes : Scopes) :
    (loadVars scope vars scopes).vars n = scopes.vars n := by
  unfold loadVars
  induction vars.entries generalizing scopes with
  | nil => rfl
  | cons e rest ih => exact (ih _).trans (Scopes.vars_modifyVars_of_ne hn _)

/-- A scope without variables has those that are loaded into it. -/
theorem vars_loadVars {scope : Nat} {scopes : Scopes} (hscope : scope < scopes.frames.length)
    (hempty : scopes.vars scope = ∅) (vars : Vars) :
    (loadVars scope vars scopes).vars scope = vars := by
  have hall : ∀ (entries : List (String × Json.Value)) (scopes : Scopes),
      scope < scopes.frames.length →
      (entries.foldl (fun scopes e => scopes.setLocal scope e.1 e.2) scopes).vars scope =
        (scopes.vars scope).insertAll entries := by
    intro entries
    induction entries with
    | nil => exact fun _ _ => rfl
    | cons e rest ih =>
      intro scopes hscope
      rw [List.foldl_cons, ih _ (by simpa using hscope), Scopes.vars_setLocal hscope, if_pos rfl]
      rfl
  rw [loadVars, hall _ _ hscope, hempty]
  exact SortedMap.ofList_of_perm (.refl _)

section Contexts

variable {home : Nat → Nat} {contexts : List (Nat × Vars)} {scopes : Scopes} {n : Nat}

theorem shape_contexts : (contexts.foldl
    (fun scopes e => loadVars (home e.1) e.2 scopes) scopes).shape = scopes.shape := by
  induction contexts generalizing scopes with
  | nil => rfl
  | cons e rest ih => exact ih.trans (shape_loadVars _ _ _)

theorem vars_contexts_of_ne (h : ∀ e ∈ contexts, n ≠ home e.1) : (contexts.foldl
    (fun scopes e => loadVars (home e.1) e.2 scopes) scopes).vars n = scopes.vars n := by
  induction contexts generalizing scopes with
  | nil => rfl
  | cons e rest ih =>
    rw [List.foldl_cons, ih (fun f hf => h f (List.mem_cons_of_mem e hf))]
    exact vars_loadVars_of_ne (h e (by simp)) _ _

/-- Where every state has a scope of its own, each gets the variables that are loaded for it. -/
theorem vars_contexts (hhomes : contexts.Pairwise fun e f => home e.1 ≠ home f.1)
    (hscopes : ∀ e ∈ contexts, home e.1 < scopes.frames.length)
    (hempty : ∀ e ∈ contexts, scopes.vars (home e.1) = ∅) {e : Nat × Vars} (he : e ∈ contexts) :
    (contexts.foldl (fun scopes e => loadVars (home e.1) e.2 scopes) scopes).vars (home e.1) =
      e.2 := by
  induction contexts generalizing scopes with
  | nil => exact absurd he List.not_mem_nil
  | cons f rest ih =>
    rw [List.pairwise_cons] at hhomes
    rw [List.foldl_cons]
    rcases List.mem_cons.1 he with rfl | he
    · rw [vars_contexts_of_ne hhomes.1]
      exact vars_loadVars (hscopes e (by simp)) (hempty e (by simp)) e.2
    · refine ih hhomes.2 ?_ ?_ he
      · intro g hg
        rw [length_loadVars]
        exact hscopes g (List.mem_cons_of_mem f hg)
      · intro g hg
        rw [vars_loadVars_of_ne (hhomes.1 g hg).symm]
        exact hempty g (List.mem_cons_of_mem f hg)

end Contexts

theorem exists_of_bind {ε α β : Type} {x : Except ε α} {f : α → Except ε β} {b : β}
    (h : x >>= f = .ok b) : ∃ a, x = .ok a ∧ f a = .ok b := by
  cases x with
  | error e => cases h
  | ok a => exact ⟨a, rfl, h⟩

/-- Looks up what a history remembers. -/
def resolveHistory (c : Chart) (e : String × List String) :
    Except SnapshotError (Nat × StateSet) := do
  let h ← resolve c e.1
  let states ← resolveAll c e.2
  .ok (h, StateSet.ofList states)

/-- All checks of the snapshot have passed, and `r` is what was looked up. -/
structure LooksUp (snap : Snapshot) (c : Chart) (r : Resolved) : Prop where
  version : snap.checkVersion = .ok ()
  active : ∃ xs, resolveAll c snap.active = .ok xs ∧ checkActive c xs = .ok () ∧
    r.active = c.entryOrder xs
  sessionId : SessionId.parse? snap.sessionId = some r.sessionId
  histories : snap.histories.entries.mapM (resolveHistory c) = .ok r.histories
  completed : resolveAll c snap.completed = .ok r.completed
  pendingInvokes : resolveAll c snap.pendingInvokes = .ok r.pendingInvokes
  invokes : resolveKeys c snap.invokes = .ok r.invokes
  contexts : resolveKeys c snap.contexts = .ok r.contexts

theorem resolved_eq_ok_iff {snap : Snapshot} {r : Resolved} :
    snap.resolved c = .ok r ↔ snap.LooksUp c r := by
  constructor
  · intro h
    unfold resolved at h
    obtain ⟨_, hversion, h⟩ := exists_of_bind h
    obtain ⟨active, hactive, h⟩ := exists_of_bind h
    obtain ⟨_, hcheck, h⟩ := exists_of_bind h
    dsimp only at h
    split at h
    swap
    · cases h
    next id hid =>
    obtain ⟨_, ⟨rfl⟩, h⟩ := exists_of_bind h
    obtain ⟨histories, hhistories, h⟩ := exists_of_bind h
    obtain ⟨completed, hcompleted, h⟩ := exists_of_bind h
    obtain ⟨pending, hpending, h⟩ := exists_of_bind h
    obtain ⟨invokes, hinvokes, h⟩ := exists_of_bind h
    obtain ⟨contexts, hcontexts, h⟩ := exists_of_bind h
    obtain rfl := Except.ok.inj h
    exact ⟨hversion, ⟨active, hactive, hcheck, rfl⟩, hid, hhistories, hcompleted, hpending,
      hinvokes, hcontexts⟩
  · intro h
    obtain ⟨active, hactive, hcheck, horder⟩ := h.active
    have hhistories : snap.histories.entries.mapM (fun e => do
        let h ← resolve c e.1
        let states ← resolveAll c e.2
        .ok (h, StateSet.ofList states)) = .ok r.histories := h.histories
    simp only [bind, Except.bind] at hhistories
    simp only [resolved, h.version, hactive, hcheck, h.sessionId, hhistories, h.completed,
      h.pendingInvokes, h.invokes, h.contexts, ← horder, bind, Except.bind]

/-- The numbers in a snapshot whose ids have been looked up. -/
structure Named (c : Chart) (r : Resolved) : Prop where
  active : ∀ s ∈ r.active, s < c.nodes.size
  histories : ∀ e ∈ r.histories, e.1 < c.nodes.size ∧ ∀ s ∈ e.2, s < c.nodes.size
  completed : ∀ s ∈ r.completed, s < c.nodes.size
  pending : ∀ s ∈ r.pendingInvokes, s < c.nodes.size
  invokes : ∀ e ∈ r.invokes, e.1 < c.nodes.size

theorem lt_size_of_resolveKeys {α : Type} {m : SortedMap String α} {found : List (Nat × α)}
    (h : resolveKeys c m = .ok found) : ∀ e ∈ found, e.1 < c.nodes.size := by
  intro e he
  obtain ⟨f, -, hf⟩ := exists_of_mapM h e he
  obtain ⟨s, hs, hse⟩ := exists_of_bind hf
  obtain rfl := Except.ok.inj hse
  exact lt_size_of_resolve hs

theorem LooksUp.named {snap : Snapshot} {r : Resolved} (h : snap.LooksUp c r) : Named c r := by
  obtain ⟨active, hactive, -, horder⟩ := h.active
  refine ⟨?_, ?_, lt_size_of_resolveAll h.completed, lt_size_of_resolveAll h.pendingInvokes,
    lt_size_of_resolveKeys h.invokes⟩
  · intro s hs
    rw [horder] at hs
    exact lt_size_of_resolveAll hactive s (Chart.mem_entryOrder.1 hs)
  · intro e he
    obtain ⟨f, -, hf⟩ := exists_of_mapM h.histories e he
    obtain ⟨k, hk, hf⟩ := exists_of_bind hf
    obtain ⟨states, hstates, hf⟩ := exists_of_bind hf
    obtain rfl := Except.ok.inj hf
    exact ⟨lt_size_of_resolve hk,
      fun s hs => lt_size_of_resolveAll hstates s (StateSet.mem_ofList.1 hs)⟩

/-- The variables that `load` leaves. -/
def loadedScopes (snap : Snapshot) (r : Resolved) (c : Chart) (session : Session) : Scopes :=
  r.contexts.foldl (fun scopes e => loadVars (session.scopeOf c e.1) e.2 scopes)
    (loadVars Session.globalScope snap.global session.scopes)

theorem scopeOf_ne_systemScope {shared : Bool} {session : Session}
    (h : session.LaidOut c shared) (s : Nat) : Session.systemScope ≠ session.scopeOf c s := by
  intro heq
  have hmay := session.mayWrite_scopeOf c s SystemVariable.event
  exact h.ne_systemScope hmay heq.symm

theorem vars_loadedScopes_system {shared : Bool} {session : Session}
    (h : session.LaidOut c shared) (snap : Snapshot) (r : Resolved) :
    (loadedScopes snap r c session).vars Session.systemScope =
      session.scopes.vars Session.systemScope := by
  unfold loadedScopes
  rw [vars_contexts_of_ne (fun e _ => scopeOf_ne_systemScope h e.1),
    vars_loadVars_of_ne (by decide)]

theorem shape_loadedScopes (snap : Snapshot) (r : Resolved) (session : Session) :
    (loadedScopes snap r c session).shape = session.scopes.shape :=
  shape_contexts.trans (shape_loadVars _ _ _)

/-- A session that is cleared, but for the states that are active. -/
def cleared (c : Chart) (shared : Bool) (id : SessionId) (conf : Configuration) : Session :=
  { Session.fresh c shared id with configuration := conf }

theorem laidOut_cleared (c : Chart) (shared : Bool) (id : SessionId) (conf : Configuration) :
    (cleared c shared id conf).LaidOut c shared :=
  { Session.laidOut_fresh c shared id with }

/-- What `load` makes of a session before it publishes it. -/
def filled (snap : Snapshot) (r : Resolved) (c : Chart) (session : Session) : Session :=
  { session with
    scopes := loadedScopes snap r c session
    histories := session.histories.insertAll r.histories
    completed := session.completed.insertAll r.completed
    invokes := SortedMap.ofList r.invokes
    pendingInvokes := session.pendingInvokes.insertAll r.pendingInvokes
    internal := snap.internalEvents
    running := snap.running
    sequence := snap.sequence }

theorem load_eq (snap : Snapshot) (r : Resolved) (session : Session) :
    snap.load r c session = (snap.filled r c session).publish c := rfl

theorem laidOut_filled {shared : Bool} {session : Session} (h : session.LaidOut c shared)
    (snap : Snapshot) (r : Resolved) : (snap.filled r c session).LaidOut c shared := by
  refine ⟨h.homes, (shape_loadedScopes snap r session).trans h.shape, ?_⟩
  intro name hevent hall
  refine Eq.trans ?_ (h.system name hevent hall)
  exact congrArg (fun vars => SortedMap.get? vars name) (vars_loadedScopes_system h snap r)

theorem known_filled {snap : Snapshot} {r : Resolved} (hr : Named c r) {shared : Bool}
    {id : SessionId} {conf : Configuration} (hconf : ∀ s ∈ conf.active, c.Ordinary s) :
    (snap.filled r c (cleared c shared id conf)).Known c := by
  refine ⟨hconf, (Interpreter.known_fresh c shared id).status, ?_, ?_, ?_, ?_⟩
  · intro h states hget
    exact hr.histories _ ((SortedMap.mem_of_get?_insertAll hget).resolve_right (fun h => nomatch h))
  · intro s hs
    exact hr.completed s ((StateSet.mem_insertAll.1 hs).resolve_left (StateSet.not_mem_empty s))
  · intro s hs
    obtain ⟨ids, hids⟩ := Option.isSome_iff_exists.1 hs
    exact hr.invokes _ ((SortedMap.mem_of_get?_insertAll hids).resolve_right (fun h => nomatch h))
  · intro s hs
    exact hr.pending s ((StateSet.mem_insertAll.1 hs).resolve_left (StateSet.not_mem_empty s))

theorem sound_load {snap : Snapshot} {r : Resolved} (hr : Named c r) {shared : Bool}
    {id : SessionId} {conf : Configuration} (hconf : ∀ s ∈ conf.active, c.Ordinary s) :
    (snap.load r c (cleared c shared id conf)).Sound c shared := by
  have hlaid := laidOut_filled (laidOut_cleared c shared id conf) snap r
  rw [load_eq]
  exact ⟨(known_filled hr hconf).publish, hlaid.publish, fun _ => Session.published_publish hlaid⟩

/-- No event is bound in what is loaded. -/
theorem unbound_load (snap : Snapshot) (r : Resolved) (shared : Bool) (id : SessionId)
    (conf : Configuration) :
    ((snap.load r c (cleared c shared id conf)).scopes.vars Session.systemScope).get?
      SystemVariable.event = none := by
  have hcleared := laidOut_cleared c shared id conf
  have hlaid := laidOut_filled hcleared snap r
  rw [load_eq, Session.publish]
  simp only
  rw [Scopes.vars_setLocal hlaid.system_lt_length, if_pos rfl, SortedMap.get?_insert,
    if_neg (by decide), filled, vars_loadedScopes_system hcleared, cleared, Session.vars_fresh,
    if_pos rfl, Session.get?_systemVars_event]

end Snapshot

namespace Interpreter

variable {σ : Type}

/-- Whatever is loaded, and whether it can be or not, a sound session comes out. -/
theorem sound_restore (m : Interpreter σ) (snap : Snapshot) (r : Run σ) :
    m.SoundRun (m.restore snap r).2 ∧ AtRest (m.restore snap r).2 := by
  have hfresh : ∀ (s : Run σ) (id : SessionId),
      m.SoundRun { s with session := Session.fresh m.chart m.evaluator.sharesContext id } ∧
        AtRest { s with session := Session.fresh m.chart m.evaluator.sharesContext id } := by
    intro s id
    refine ⟨sound_fresh _ _ _, ?_⟩
    intro hrunning
    cases hrunning
  unfold restore Snapshot.restoreInto
  dsimp only
  cases hresolved : snap.resolved m.chart with
  | error e => exact hfresh _ _
  | ok found =>
    have hnamed := (Snapshot.resolved_eq_ok_iff.1 hresolved).named
    dsimp only
    obtain ⟨failure, conf, hconf⟩ : ∃ failure conf, Configuration.changeAll
        (fun conf s => conf.enter m.chart s)
        (Session.fresh m.chart m.evaluator.sharesContext found.sessionId).configuration
        found.active = (failure, conf) := ⟨_, _, rfl⟩
    rw [hconf]
    cases failure with
    | some e => exact hfresh _ _
    | none =>
      have hordinary : ∀ s ∈ conf.active, m.chart.Ordinary s := by
        intro s hs
        rcases Configuration.active_changeAll_enter hconf s hs with hs | ⟨hs, hpseudo⟩
        · exact absurd hs (StateSet.not_mem_empty s)
        · exact ⟨hnamed.active s hs, hpseudo⟩
      exact ⟨Snapshot.sound_load hnamed hordinary,
        fun _ => ⟨rfl, Snapshot.unbound_load snap found _ _ conf⟩⟩

end Interpreter

end Statechart
