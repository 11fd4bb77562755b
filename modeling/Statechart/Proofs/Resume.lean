import Statechart.Proofs.Snapshots
import Statechart.Proofs.Worlds

/-!
Taking up a session again. A session at rest whose configuration is legal is brought back by its
own snapshot, whatever was in the session that takes it in; and from equal sessions everything
goes on alike as long as the hosts answer alike.
-/

namespace Statechart

attribute [ext] Session

namespace Interpreter

variable {σ : Type}

/-- The runs that come about by operations from outside, by loading snapshots, and by what
happens in the world and to the queue meanwhile. -/
inductive Reachable (m : Interpreter σ) : Run σ → Prop where
  | new (id : SessionId) (world : σ) : Reachable m (.new id world)
  | operate {r : Run σ} (h : Reachable m r) (operation : Operation) :
    Reachable m (m.operate operation r).2
  | restore {r : Run σ} (h : Reachable m r) (snap : Snapshot) : Reachable m (m.restore snap r).2
  | meanwhile {r : Run σ} (h : Reachable m r) (queue : List Event) (world : σ) :
    Reachable m { r with queue := queue, world := world }

namespace Reachable

variable {m : Interpreter σ}

theorem operateAll (operations : List Operation) {r : Run σ} (h : m.Reachable r) :
    m.Reachable (m.operateAll operations r) := by
  induction operations generalizing r with
  | nil => exact h
  | cons operation rest ih => exact ih (h.operate operation)

theorem triggerAll (events : List Event) {r : Run σ} (h : m.Reachable r) :
    m.Reachable (m.triggerAll events r).2 := by
  induction events generalizing r with
  | nil => exact h
  | cons event rest ih =>
    have hfirst : m.Reachable (m.trigger event r).2 := h.operate (.trigger event)
    rw [Interpreter.triggerAll]
    split
    · next hout =>
      rw [hout] at hfirst
      exact hfirst
    · next hout =>
      rw [hout] at hfirst
      exact ih hfirst

theorem drainQueue (rounds : Nat) {r : Run σ} (h : m.Reachable r) {out : Outcome × Run σ}
    (hout : m.drainQueue rounds r = some out) : m.Reachable out.2 := by
  have hstep : ∀ {r s : Run σ} {event : Event} {rest : List Event} {outcome : Outcome},
      m.Reachable r → m.trigger event { r with queue := rest } = (outcome, s) → m.Reachable s := by
    intro r s event rest outcome h htrigger
    have hnext : m.Reachable (m.trigger event { r with queue := rest }).2 :=
      (h.meanwhile rest r.world).operate (.trigger event)
    rw [htrigger] at hnext
    exact hnext
  obtain ⟨events, hover, -⟩ := m.drainQueue_eq_some_iff.1 hout
  clear hout
  induction hover with
  | stopped _ => exact h
  | empty _ _ => exact h
  | failed _ _ htrigger => exact hstep h htrigger
  | next _ _ htrigger _ ih => exact ih (hstep h htrigger)

/-- What can be reached is new or sound, and at rest between operations. -/
theorem newOrSound (hw : m.chart.WellFormed) {r : Run σ} (h : m.Reachable r) :
    m.NewOrSound r ∧ AtRest r := by
  induction h with
  | new id world => exact ⟨.inl ⟨id, rfl⟩, fun hrunning => nomatch hrunning⟩
  | operate _ operation ih =>
    exact ⟨((lasts_sound hw).operate operation ih.1).1, atRest_operate hw operation ih.1 ih.2⟩
  | restore _ snap _ => exact (m.sound_restore snap _).imp_left .inr
  | meanwhile _ _ _ ih => exact ih

end Reachable

end Interpreter

/-- A session that is only just laid out has the same snapshot as a new one. -/
theorem Session.snapshot_fresh (c : Chart) (shared : Bool) (id : SessionId) (stamp : Stamp) :
    (Session.fresh c shared id).snapshot c stamp = (Session.new id).snapshot c stamp := by
  have hglobal : (fresh c shared id).scopes.vars globalScope =
      (new id).scopes.vars globalScope := by
    rw [vars_fresh, if_neg (by decide)]
    exact (vars_ground globalScope).symm
  have hcontexts : ((fresh c shared id).homes.entries.map fun e =>
      (e.1, (fresh c shared id).scopes.vars e.2)).filter (fun e => !e.2.isEmpty) = [] := by
    rw [List.filter_eq_nil_iff, List.forall_mem_map]
    intro e he
    have hhome : (stage c shared).1.get? e.1 = some e.2 := SortedMap.mem_entries_iff.1 he
    have hsystem : e.2 ≠ systemScope :=
      Nat.ne_of_gt (Nat.lt_of_lt_of_le (by decide) ((staged_stage c shared).two_le hhome))
    rw [vars_fresh, if_neg hsystem]
    exact Bool.false_ne_true
  unfold snapshot
  rw [hglobal, hcontexts]
  rfl

namespace Snapshot

variable {c : Chart} {session : Session}

theorem mapM_histories (hw : c.WellFormed) (hknown : session.Known c) (stamp : Stamp) :
    ∃ found, (session.snapshot c stamp).histories.entries.mapM (resolveHistory c) = .ok found ∧
      found.Perm session.histories.entries := by
  have hget : ∀ e ∈ session.histories.entries,
      e.1 < c.nodes.size ∧ ∀ s ∈ e.2, s < c.nodes.size :=
    fun e he => hknown.histories e.1 e.2 (SortedMap.mem_entries_iff.1 he)
  apply mapM_keyedById hw (fun e he => (hget e he).1) session.histories.keys_nodup
  rw [List.forall₂_map_left_iff, List.forall₂_same]
  rintro ⟨h, states⟩ he
  obtain ⟨hh, hstates⟩ := hget _ he
  refine ⟨rfl, ?_⟩
  simp only [resolveHistory]
  rw [resolve_idOf hw hh, resolveAll_idsOf hw hstates]
  exact congrArg (fun states => Except.ok (h, states)) (StateSet.ext (fun s => StateSet.mem_ofList))

theorem mapM_invokes (hw : c.WellFormed) (hknown : session.Known c) (stamp : Stamp) :
    ∃ found, resolveKeys c (session.snapshot c stamp).invokes = .ok found ∧
      found.Perm session.invokes.entries := by
  refine resolveKeys_keyedById hw ?_ session.invokes.keys_nodup
  intro e he
  apply hknown.invokes
  rw [SortedMap.mem_entries_iff.1 he]
  rfl

/-- The states that have variables of their own, and those variables. -/
def contextsOf (session : Session) : List (Nat × Vars) :=
  (session.homes.entries.map (fun e => (e.1, session.scopes.vars e.2))).filter
    (fun e => !e.2.isEmpty)

theorem sublist_contextsOf (session : Session) :
    ((contextsOf session).map Prod.fst).Sublist session.homes.keys := by
  have h := (List.filter_sublist (p := fun e : Nat × Vars => !e.2.isEmpty)
    (l := session.homes.entries.map (fun e => (e.1, session.scopes.vars e.2)))).map Prod.fst
  rwa [List.map_map] at h

theorem mapM_contexts {shared : Bool} (hw : c.WellFormed) (hlaid : session.LaidOut c shared)
    (stamp : Stamp) : ∃ found, resolveKeys c (session.snapshot c stamp).contexts = .ok found ∧
      found.Perm (contextsOf session) := by
  have hsublist := sublist_contextsOf session
  refine resolveKeys_keyedById hw ?_ (session.homes.keys_nodup.sublist hsublist)
  intro e he
  have hkey : e.1 ∈ session.homes.keys := hsublist.subset (List.mem_map_of_mem he)
  rw [hlaid.homes] at hkey
  obtain ⟨n, hn⟩ := Option.isSome_iff_exists.1 (SortedMap.mem_keys_iff.1 hkey)
  exact (Session.staged_stage c shared).lt_size hn

/-- The configuration passes the check that is made of a snapshot. -/
theorem checkActive_members {conf : Configuration} (hordinary : ∀ s ∈ conf.active, c.Ordinary s)
    (hclosed : c.closure (conf.atomic c).members = conf.active)
    (hlegal : c.violations (conf.atomic c) = []) :
    checkActive c conf.active.members = .ok () := by
  have hpseudo : conf.active.members.find? c.isPseudo = none := by
    rw [List.find?_eq_none]
    intro s hs
    simp [(hordinary s hs).2]
  have hatomic : StateSet.ofList (conf.active.members.filter c.isAtomic) = conf.atomic c := by
    apply StateSet.ext
    intro s
    rw [StateSet.mem_ofList, List.mem_filter, Configuration.atomic, StateSet.mem_filter]
    rfl
  have hactive : StateSet.ofList conf.active.members = conf.active :=
    StateSet.ext (fun s => StateSet.mem_ofList)
  unfold checkActive
  simp only [hpseudo, hatomic, hactive, hclosed, hlegal, ne_eq, not_true_eq_false, if_false]

/-- The snapshot of a session is looked up, and what is found is what was written. -/
theorem resolved_snapshot {shared : Bool} (hw : c.WellFormed) (hknown : session.Known c)
    (hlaid : session.LaidOut c shared)
    (hclosed : c.closure (session.configuration.atomic c).members = session.configuration.active)
    (hlegal : c.violations (session.configuration.atomic c) = []) (stamp : Stamp) :
    ∃ found, (session.snapshot c stamp).resolved c = .ok found ∧
      found.active = c.entryOrder session.configuration.active.members ∧
      found.sessionId = session.id ∧ found.histories.Perm session.histories.entries ∧
      found.completed = session.completed.members ∧
      found.pendingInvokes = session.pendingInvokes.members ∧
      found.invokes.Perm session.invokes.entries ∧ found.contexts.Perm (contextsOf session) := by
  have hactive : resolveAll c (session.snapshot c stamp).active =
      .ok session.configuration.active.members :=
    resolveAll_idsOf hw (fun s hs => (hknown.active s hs).1)
  have hcompleted : resolveAll c (session.snapshot c stamp).completed =
      .ok session.completed.members := resolveAll_idsOf hw hknown.completed
  have hpending : resolveAll c (session.snapshot c stamp).pendingInvokes =
      .ok session.pendingInvokes.members := resolveAll_idsOf hw hknown.pending
  have hid : SessionId.parse? (session.snapshot c stamp).sessionId = some session.id :=
    session.id.parse?_render
  have hcheck := checkActive_members hknown.active hclosed hlegal
  obtain ⟨histories, hhistories, hhperm⟩ := mapM_histories hw hknown stamp
  obtain ⟨invokes, hinvokes, hiperm⟩ := mapM_invokes hw hknown stamp
  obtain ⟨contexts, hcontexts, hcperm⟩ := mapM_contexts hw hlaid stamp
  refine ⟨⟨_, session.id, histories, _, _, invokes, contexts⟩, resolved_eq_ok_iff.2 ?_, rfl, rfl,
    hhperm, rfl, rfl, hiperm, hcperm⟩
  exact ⟨rfl, ⟨_, hactive, hcheck, rfl⟩, hid, hhistories, hcompleted, hpending, hinvokes, hcontexts⟩

theorem scopeOf_home {s n : Nat} (h : session.homes.get? s = some n) :
    session.scopeOf c s = n := by
  simp [Session.scopeOf, Chart.branch, h]

theorem mem_contextsOf {s : Nat} {vars : Vars} : (s, vars) ∈ contextsOf session ↔
    ∃ n, session.homes.get? s = some n ∧ session.scopes.vars n = vars ∧ vars.isEmpty = false := by
  simp only [contextsOf, List.mem_filter, List.mem_map, Bool.not_eq_true']
  constructor
  · rintro ⟨⟨e, he, heq⟩, hne⟩
    obtain ⟨rfl, rfl⟩ := Prod.mk.inj heq
    exact ⟨e.2, SortedMap.mem_entries_iff.1 he, rfl, hne⟩
  · rintro ⟨n, hn, rfl, hne⟩
    exact ⟨⟨(s, n), SortedMap.mem_entries_iff.2 hn, rfl⟩, hne⟩

theorem vars_cleared (c : Chart) (shared : Bool) (id : SessionId) (conf : Configuration) {n : Nat}
    (hn : n ≠ Session.systemScope) : (cleared c shared id conf).scopes.vars n = ∅ :=
  (Session.vars_fresh c shared id n).trans (if_neg hn)

section Contexts

variable {shared : Bool} (hlaid : session.LaidOut c shared) {found : Resolved}
  (hcontexts : found.contexts.Perm (contextsOf session)) (id : SessionId) (conf : Configuration)

include hlaid hcontexts

/-- Every context is that of a state with a scope of its own. -/
theorem home_of_context {e : Nat × Vars} (he : e ∈ found.contexts) :
    ∃ n, (Session.stage c shared).1.get? e.1 = some n ∧
      (cleared c shared id conf).scopeOf c e.1 = n ∧ session.scopes.vars n = e.2 ∧
      e.2.isEmpty = false := by
  obtain ⟨n, hn, hvars, hne⟩ := mem_contextsOf.1 (hcontexts.mem_iff.1 he)
  rw [hlaid.homes] at hn
  exact ⟨n, hn, scopeOf_home hn, hvars, hne⟩

theorem contexts_apart : found.contexts.Pairwise fun e f =>
    (cleared c shared id conf).scopeOf c e.1 ≠ (cleared c shared id conf).scopeOf c f.1 := by
  have hkeys : (found.contexts.map Prod.fst).Nodup :=
    (hcontexts.map Prod.fst).nodup_iff.2
      (session.homes.keys_nodup.sublist (sublist_contextsOf session))
  apply (List.pairwise_map.1 hkeys).imp_of_mem
  intro e f he hf hne heq
  obtain ⟨n, hn, hscope, -⟩ := home_of_context hlaid hcontexts id conf he
  obtain ⟨k, hk, hscope', -⟩ := home_of_context hlaid hcontexts id conf hf
  rw [hscope, hscope'] at heq
  subst heq
  exact hne ((Session.staged_stage c shared).injective hn hk)

theorem vars_loadedScopes_global {snap : Snapshot}
    (hglobal : snap.global = session.scopes.vars Session.globalScope) :
    (loadedScopes snap found c (cleared c shared id conf)).vars Session.globalScope =
      session.scopes.vars Session.globalScope := by
  have hscope : Session.globalScope < (cleared c shared id conf).scopes.frames.length :=
    (laidOut_cleared c shared id conf).two_le_length
  unfold loadedScopes
  rw [vars_contexts_of_ne, vars_loadVars hscope (vars_cleared c shared id conf (by decide)),
    hglobal]
  intro e he heq
  obtain ⟨n, hn, hhome, -⟩ := home_of_context hlaid hcontexts id conf he
  have h2 := (Session.staged_stage c shared).two_le hn
  rw [← hhome, ← heq] at h2
  exact absurd h2 (by decide)

theorem vars_loadedScopes_local {snap : Snapshot} {n : Nat} (h2 : 2 ≤ n)
    (hlt : n < (Session.stage c shared).2.frames.length) :
    (loadedScopes snap found c (cleared c shared id conf)).vars n = session.scopes.vars n := by
  have hstaged := Session.staged_stage c shared
  have hfixed : ∀ {k : Nat}, 2 ≤ k → k ≠ Session.systemScope ∧ k ≠ Session.globalScope := by
    intro k hk
    unfold Session.systemScope Session.globalScope
    omega
  obtain ⟨s, hs⟩ := hstaged.surjective h2 hlt
  unfold loadedScopes
  cases hvars : (session.scopes.vars n).isEmpty with
  | true =>
    -- A scope without variables has no context.
    rw [vars_contexts_of_ne, vars_loadVars_of_ne (hfixed h2).2,
      vars_cleared c shared id conf (hfixed h2).1, SortedMap.eq_empty_of_isEmpty hvars]
    intro e he heq
    obtain ⟨k, -, hhome, hlocal, hne⟩ := home_of_context hlaid hcontexts id conf he
    rw [← hhome, ← heq] at hlocal
    rw [← hlocal, hvars] at hne
    cases hne
  | false =>
    have hmem : (s, session.scopes.vars n) ∈ found.contexts := by
      rw [hcontexts.mem_iff, mem_contextsOf, hlaid.homes]
      exact ⟨n, hs, rfl, hvars⟩
    have hhome : (cleared c shared id conf).scopeOf c s = n := scopeOf_home hs
    have hapart := contexts_apart hlaid hcontexts id conf
    refine Eq.trans (congrArg _ hhome.symm) (vars_contexts hapart ?_ ?_ hmem)
    · intro e he
      obtain ⟨k, hk, hhome', -⟩ := home_of_context hlaid hcontexts id conf he
      rw [hhome', length_loadVars, (laidOut_cleared c shared id conf).length]
      exact hstaged.lt_length hk
    · intro e he
      obtain ⟨k, hk, hhome', -⟩ := home_of_context hlaid hcontexts id conf he
      obtain ⟨hsystem, hglobal⟩ := hfixed (hstaged.two_le hk)
      rw [hhome', vars_loadVars_of_ne hglobal, vars_cleared c shared id conf hsystem]

omit hcontexts in
theorem vars_loadedScopes_beyond (snap : Snapshot) (found : Resolved) {n : Nat}
    (hn : (Session.stage c shared).2.frames.length ≤ n) :
    (loadedScopes snap found c (cleared c shared id conf)).vars n = session.scopes.vars n := by
  have hbeyond : session.scopes.vars n = ∅ := Scopes.vars_of_le (by rwa [hlaid.length])
  rw [hbeyond]
  apply Scopes.vars_of_le
  unfold loadedScopes
  rwa [← Scopes.length_shape, shape_contexts, shape_loadVars, Scopes.length_shape,
    (laidOut_cleared c shared id conf).length]

/-- The variables of all scopes but that of the system are those that the session had. -/
theorem vars_loadedScopes {snap : Snapshot}
    (hglobal : snap.global = session.scopes.vars Session.globalScope) {n : Nat}
    (hn : n ≠ Session.systemScope) :
    (loadedScopes snap found c (cleared c shared id conf)).vars n = session.scopes.vars n := by
  by_cases hchart : n = Session.globalScope
  · subst hchart
    exact vars_loadedScopes_global hlaid hcontexts id conf hglobal
  · by_cases hlt : n < (Session.stage c shared).2.frames.length
    · refine vars_loadedScopes_local hlaid hcontexts id conf ?_ hlt
      unfold Session.systemScope at hn
      unfold Session.globalScope at hchart
      omega
    · exact vars_loadedScopes_beyond hlaid id conf snap found (Nat.le_of_not_lt hlt)

end Contexts

/-- The scopes that come out are those that the session had. -/
theorem scopes_load {shared : Bool} (hlaid : session.LaidOut c shared)
    (hpublished : session.Published c)
    (hunbound : (session.scopes.vars Session.systemScope).get? SystemVariable.event = none)
    {snap : Snapshot} {found : Resolved}
    (hglobal : snap.global = session.scopes.vars Session.globalScope)
    (hcontexts : found.contexts.Perm (contextsOf session)) :
    (snap.load found c (cleared c shared session.id session.configuration)).scopes =
      session.scopes := by
  have hcleared := laidOut_cleared c shared session.id session.configuration
  have hfilled := laidOut_filled hcleared snap found
  have hsound := hfilled.publish
  apply Scopes.ext_vars
  · rw [load_eq, hsound.shape, hlaid.shape]
  · intro n
    by_cases hn : n = Session.systemScope
    · subst hn
      apply SortedMap.ext_get?
      intro name
      by_cases hall : name = SystemVariable.allStates
      · subst hall
        have hout := (Session.published_publish hfilled).allStates
        rw [load_eq, hout, hpublished.allStates, hpublished.status]
        rfl
      · by_cases hevent : name = SystemVariable.event
        · subst hevent
          rw [unbound_load, hunbound]
        · rw [load_eq, hsound.system name hevent hall, hlaid.system name hevent hall]
          rfl
    · rw [load_eq, Session.publish]
      dsimp only
      rw [Scopes.vars_setLocal hfilled.system_lt_length, if_neg hn]
      exact vars_loadedScopes hlaid hcontexts _ _ hglobal hn

/-- Loading the snapshot of a session that is published and at rest brings the session back. -/
theorem load_snapshot {shared : Bool} (hlaid : session.LaidOut c shared)
    (hpublished : session.Published c)
    (hpending : session.status.pending = session.internal.length)
    (hunbound : (session.scopes.vars Session.systemScope).get? SystemVariable.event = none)
    {stamp : Stamp} {found : Resolved} (hhistories : found.histories.Perm session.histories.entries)
    (hcompleted : found.completed = session.completed.members)
    (hwaiting : found.pendingInvokes = session.pendingInvokes.members)
    (hinvokes : found.invokes.Perm session.invokes.entries)
    (hcontexts : found.contexts.Perm (contextsOf session)) :
    (session.snapshot c stamp).load found c (cleared c shared session.id session.configuration) =
      session := by
  apply Session.ext
  · rfl
  · rfl
  · rw [hpublished.status, hpending]
    rfl
  · exact scopes_load hlaid hpublished hunbound rfl hcontexts
  · exact hlaid.homes.symm
  · exact SortedMap.ofList_of_perm hhistories
  · apply StateSet.ext
    intro s
    change s ∈ StateSet.ofList found.completed ↔ _
    rw [hcompleted]
    exact StateSet.mem_ofList
  · exact SortedMap.ofList_of_perm hinvokes
  · apply StateSet.ext
    intro s
    change s ∈ StateSet.ofList found.pendingInvokes ↔ _
    rw [hwaiting]
    exact StateSet.mem_ofList
  · rfl
  · rfl
  · rfl

end Snapshot

namespace Interpreter

variable {σ τ : Type}

/-- A session that is laid out, published and at rest is brought back by its snapshot if its
configuration is legal. -/
theorem restore_snapshot {m : Interpreter σ} (hw : m.chart.WellFormed) {r : Run σ}
    (hknown : r.session.Known m.chart)
    (hlaid : r.session.LaidOut m.chart m.evaluator.sharesContext)
    (hpublished : r.session.Published m.chart)
    (hpending : r.session.status.pending = r.session.internal.length) (hunbound : Unbound r)
    (hclosed : m.chart.closure (r.session.configuration.atomic m.chart).members =
      r.session.configuration.active)
    (hlegal : m.chart.violations (r.session.configuration.atomic m.chart) = [])
    (stamp : Stamp) (k : Host τ) (q : Run τ) :
    ((m.on k).restore (m.snapshot r stamp) q).1 = none ∧
      ((m.on k).restore (m.snapshot r stamp) q).2.session = r.session := by
  obtain ⟨found, hfound, hactive, hid, hhistories, hcompleted, hwaiting, hinvokes, hcontexts⟩ :=
    Snapshot.resolved_snapshot hw hknown hlaid hclosed hlegal stamp
  have hperm : found.active.Perm r.session.configuration.active.members := by
    rw [hactive]
    exact Chart.sortBy_perm _ _
  obtain ⟨conf, hconf⟩ := Chart.changeAll_enter m.chart .empty
    (hperm.nodup_iff.2 (StateSet.members_nodup _))
    (fun s hs => ⟨(hknown.active s (hperm.mem_iff.1 hs)).2, StateSet.not_mem_empty s⟩)
  have hsame : conf.active = r.session.configuration.active := by
    apply StateSet.ext
    intro s
    rw [Configuration.mem_changeAll_enter hconf, hperm.mem_iff]
    exact or_iff_right (StateSet.not_mem_empty s)
  obtain rfl : conf = r.session.configuration := congrArg Configuration.mk hsame
  have hinto : ∀ other : Session, (m.snapshot r stamp).restoreInto m.chart
      m.evaluator.sharesContext other = (none, r.session) := by
    intro other
    unfold Snapshot.restoreInto
    rw [show (m.snapshot r stamp).resolved m.chart = .ok found from hfound]
    dsimp only
    rw [show (Session.fresh m.chart m.evaluator.sharesContext found.sessionId).configuration =
      .empty from rfl, hconf, hid]
    exact congrArg (Prod.mk none) (Snapshot.load_snapshot hlaid hpublished hpending hunbound
      hhistories hcompleted hwaiting hinvokes hcontexts)
  unfold restore
  dsimp only
  rw [chart_on, evaluator_on, hinto]
  exact ⟨rfl, rfl⟩

/-- No variable of a new session has a value, not even its id. -/
theorem value_new (m : Interpreter σ) (id : SessionId) (world : σ) (state : Option String)
    (name : String) : m.value (.new id world) state name = none := by
  have hnone : ∀ scope, (Session.new id).scopes.get? scope name = none := by
    intro scope
    refine List.findSome?_eq_none_iff.2 fun n _ => ?_
    exact congrArg (fun vars : Vars => vars.get? name) (Session.vars_ground n)
  cases state with
  | none => exact hnone _
  | some id =>
    rw [value, Option.bind_eq_none_iff]
    exact fun s _ => hnone _

/-- A new session is not brought back by its snapshot: what comes of that is laid out. -/
theorem restore_snapshot_new {m : Interpreter σ} (hw : m.chart.WellFormed) (id : SessionId)
    (world : σ) (stamp : Stamp) (k : Host τ) (q : Run τ) :
    ((m.on k).restore (m.snapshot (.new id world) stamp) q).1 = none ∧
      ((m.on k).restore (m.snapshot (.new id world) stamp) q).2.session =
        (m.begin id world).session := by
  have hsame : m.snapshot (.new id world) stamp = m.snapshot (m.begin id world) stamp :=
    (Session.snapshot_fresh m.chart m.evaluator.sharesContext id stamp).symm
  have hlegal : m.chart.violations ((m.begin id world).session.configuration.atomic m.chart) = [] :=
    (hw.violations_eq_nil_iff (fun s hs => absurd hs (StateSet.not_mem_empty s))).2
      Chart.legal_empty
  have hpublished : (m.begin id world).session.Published m.chart := by
    refine ⟨rfl, ?_⟩
    change ((Session.fresh _ _ _).scopes.vars Session.systemScope).get? _ = _
    rw [Session.vars_fresh, if_pos rfl, Session.systemVars, SortedMap.get?_insert, if_pos rfl]
    rfl
  have hunbound : Unbound (m.begin id world) := by
    change ((Session.fresh _ _ _).scopes.vars Session.systemScope).get? _ = _
    rw [Session.vars_fresh, if_pos rfl, Session.get?_systemVars_event]
  rw [hsame]
  exact restore_snapshot hw (known_fresh _ _ _) (Session.laidOut_fresh _ _ _) hpublished rfl
    hunbound rfl hlegal stamp k q

/-- A running session whose configuration is legal and closed upward can be taken up by any
other interpreter of the same kind, whatever it has done before: its snapshot is accepted and
gives the same session; and if the hosts answer alike from then on, the same comes of all
operations, and sessions, snapshots and what is added to the journals are the same. -/
theorem resume {m : Interpreter σ} {o : Outline} (hbuild : o.build = .ok m.chart) {r : Run σ}
    (h : m.Reachable r) (hrunning : r.session.running = true)
    (hclosed : m.chart.closure (r.session.configuration.atomic m.chart).members =
      r.session.configuration.active)
    (hlegal : m.chart.violations (r.session.configuration.atomic m.chart) = [])
    (stamp : Stamp) (k : Host τ) (q : Run τ) :
    let restored := (m.on k).restore (m.snapshot r stamp) q
    restored.1 = none ∧ restored.2.session = r.session ∧
      ∀ (R : σ → τ → Prop), Host.AnswersAlike R m.host k → R r.world restored.2.world →
        ∀ operations : List Operation,
          let s := m.operateAll operations r
          let t := (m.on k).operateAll operations restored.2
          (∀ operation, (m.operate operation s).1 = ((m.on k).operate operation t).1) ∧
            t.session = s.session ∧
            (∀ stamp, (m.on k).snapshot t stamp = m.snapshot s stamp) ∧
            ∃ entries, s.journal = entries ++ r.journal ∧
              t.journal = entries ++ restored.2.journal := by
  intro restored
  obtain ⟨hw, -⟩ := Outline.wellFormed_of_build hbuild
  obtain ⟨hneworsound, hrest⟩ := h.newOrSound hw
  obtain ⟨hpending, hunbound⟩ := hrest hrunning
  have hsound := hneworsound.sound hrunning
  obtain ⟨hnone, hsession⟩ := restore_snapshot hw hsound.known hsound.laidOut
    (hsound.published hrunning) hpending hunbound hclosed hlegal stamp k q
  refine ⟨hnone, hsession, ?_⟩
  intro R halike hworld operations s t
  obtain ⟨hout, hsame, hjournal⟩ := halike.operateAll_alike hsession hworld operations
  refine ⟨hout, hsame, ?_, hjournal⟩
  intro stamp
  exact congrArg (fun session => session.snapshot m.chart stamp) hsame

/-- A playing player is taken up by a session that has not been started, and is muted there. -/
theorem resume_player :
    let snap := player.snapshot playerRun ⟨"evening", ⟨19000, 0, 0⟩⟩
    let restored := (player.on .silent).restore snap (Run.new ⟨List.replicate 32 2, rfl⟩ ())
    restored.1 = none ∧ restored.2.session = playerRun.session ∧
      ((player.on .silent).operateAll [.trigger (.signal "mute")] restored.2).session =
        (player.operateAll [.trigger (.signal "mute")] playerRun).session := by
  intro snap restored
  have hreachable : player.Reachable playerRun := (Reachable.new _ _).operateAll _
  have halike : Host.AnswersAlike (fun _ _ => True) player.host (.silent : Host Unit) :=
    ⟨fun _ _ _ _ => ⟨rfl, trivial⟩, fun _ _ _ _ => ⟨rfl, trivial⟩, fun _ _ _ _ => ⟨rfl, trivial⟩,
      fun _ _ _ _ => ⟨rfl, trivial⟩⟩
  have hrunning : playerRun.session.running = true := by decide +kernel
  have hclosed :
      player.chart.closure (playerRun.session.configuration.atomic player.chart).members =
        playerRun.session.configuration.active := by decide +kernel
  have hlegal :
      player.chart.violations (playerRun.session.configuration.atomic player.chart) = [] := by
    decide +kernel
  obtain ⟨hnone, hsession, hresume⟩ := resume (m := player) Outline.build_player hreachable
    hrunning hclosed hlegal ⟨"evening", ⟨19000, 0, 0⟩⟩ .silent
    (Run.new ⟨List.replicate 32 2, rfl⟩ ())
  obtain ⟨-, hsame, -⟩ := hresume _ halike trivial [.trigger (.signal "mute")]
  exact ⟨hnone, hsession, hsame⟩

end Interpreter

end Statechart
