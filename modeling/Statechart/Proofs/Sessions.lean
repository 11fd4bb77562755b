import Statechart.Proofs.Operations
import Statechart.Proofs.Planning
import Statechart.Proofs.Scopes

/-!
What is always true of a session, whatever chart it runs: every number in it is that of a node,
its scopes are laid out as those of a fresh session, and while it runs its status shows the
configuration as it is. None of this needs the checks that are made of targets.
-/

namespace Statechart

namespace Expansion

variable {c : Chart} {histories : Histories}

/-- Nothing but states without children is noted, and nothing but nodes led to. -/
theorem expand_atomic (hw : c.WellFormed)
    (hh : ∀ h states, histories.get? h = some states → ∀ s ∈ states, s < c.nodes.size)
    (queue : List Nat) {s : Nat} {e : Expansion} (hs : s < c.nodes.size)
    (he : c.AllAtomic e.targets) :
    c.AllAtomic (expand c histories queue s e).1.targets ∧
      ∀ x ∈ (expand c histories queue s e).2, x < c.nodes.size := by
  have hnil : ∀ x ∈ ([] : List Nat), x < c.nodes.size := fun x hx => absurd hx List.not_mem_nil
  have htargets : ∀ t, ∀ x ∈ (c.transition t).targets, x < c.nodes.size :=
    fun t x hx => hw.targets_lt hx
  have hinsert : c.isAtomic s = true → c.AllAtomic (e.targets.insert s) := by
    intro hatomic x hx
    rcases StateSet.mem_insert.1 hx with rfl | hx
    · exact ⟨hatomic, hs⟩
    · exact he x hx
  unfold expand
  cases hk : c.kind s with
  | simple => exact ⟨hinsert (by simp [Chart.isAtomic, NodeKind.isAtomic, hk]), hnil⟩
  | final => exact ⟨hinsert (by simp [Chart.isAtomic, NodeKind.isAtomic, hk]), hnil⟩
  | compound =>
    dsimp only
    split
    · exact ⟨he, hnil⟩
    · cases c.defaultTransition? s with
      | some t => exact ⟨he, htargets t⟩
      | none => exact ⟨he, hnil⟩
  | parallel => exact ⟨he, fun x hx => (hw.ordinary_of_mem_children hx).1⟩
  | history depth =>
    dsimp only
    split
    · next states hstates =>
      exact ⟨he, hh s states (Option.filter_eq_some_iff.1 hstates).1⟩
    · cases (c.node s).transitions.head? with
      | some t => exact ⟨he, htargets t⟩
      | none => exact ⟨he, hnil⟩
  | initial =>
    dsimp only
    cases (c.node s).transitions.head? with
    | some t => exact ⟨he, htargets t⟩
    | none => exact ⟨he, hnil⟩

theorem drain_atomic (hw : c.WellFormed)
    (hh : ∀ h states, histories.get? h = some states → ∀ s ∈ states, s < c.nodes.size)
    (residual : StateSet) (steps : Nat) {queue : List Nat} {e : Expansion}
    (hqueue : ∀ q ∈ queue, q < c.nodes.size) (he : c.AllAtomic e.targets) :
    c.AllAtomic (drain c histories residual steps queue e).targets := by
  induction steps generalizing queue e with
  | zero => exact he
  | succ steps ih =>
    have hpending : ∀ q ∈ e.pending c residual queue, q < c.nodes.size :=
      pending_lt_size hw hqueue e
    rw [drain]
    split
    · exact he
    · next s rest hrest =>
      rw [hrest] at hpending
      have hvisited : c.AllAtomic
          ({ e with visited := e.visited.insert s } : Expansion).targets := he
      obtain ⟨htargets, hnext⟩ := expand_atomic hw hh rest (hpending s (by simp)) hvisited
      apply ih
      · intro q hq
        rcases List.mem_append.1 hq with hq | hq
        · exact hpending q (List.mem_cons_of_mem s hq)
        · exact hnext q hq
      · exact htargets

end Expansion

/-- A store of histories names nodes only. -/
def Histories.Known (c : Chart) (histories : Histories) : Prop :=
  ∀ h states, histories.get? h = some states →
    h < c.nodes.size ∧ ∀ s ∈ states, s < c.nodes.size

namespace Chart

variable {c : Chart}

theorem lt_size_of_mem_closure (hw : c.WellFormed) {states : StateSet}
    (h : ∀ s ∈ states, s < c.nodes.size) {x : Nat} (hx : x ∈ c.closure states.members) :
    x < c.nodes.size := by
  obtain ⟨s, hs, hsx⟩ := hw.mem_closure.1 hx
  exact Nat.lt_of_le_of_lt (hw.within_le hsx) (h s hs)

theorem allAtomic_empty (c : Chart) : c.AllAtomic ∅ :=
  fun x hx => absurd hx (StateSet.not_mem_empty x)

theorem allAtomic_planStart (hw : c.WellFormed) {histories : Histories}
    (hh : histories.Known c) : c.AllAtomic (c.planStart histories).next :=
  Expansion.drain_atomic hw (fun h states hget => (hh h states hget).2) ∅ c.nodes.size
    (fun _ hq => hw.initial_lt hq) c.allAtomic_empty

theorem planStart_lt_size (hw : c.WellFormed) {histories : Histories}
    (hh : histories.Known c) : ∀ x ∈ (c.planStart histories).entryList, x < c.nodes.size := by
  intro x hx
  exact lt_size_of_mem_closure hw (fun s hs => (allAtomic_planStart hw hh s hs).2)
    (mem_entryOrder.1 hx)

theorem seeds_lt_size (hw : c.WellFormed) (residual : StateSet) (ts : List Nat) :
    ∀ q ∈ c.seeds residual ts, q < c.nodes.size := by
  intro q hq
  rcases mem_seeds hw hq with ⟨t, -, hq⟩ | ⟨t, -, x, p, hbeside⟩
  · exact hw.targets_lt hq
  · exact (hw.ordinary_of_mem_children hbeside.child).1

theorem allAtomic_targets (hw : c.WellFormed) {histories : Histories} (hh : histories.Known c)
    (before : Status) (ts : List Nat) :
    c.AllAtomic (c.plan histories before ts).expansion.targets :=
  Expansion.drain_atomic hw (fun h states hget => (hh h states hget).2)
    (c.staying before.states ts) c.nodes.size (seeds_lt_size hw (c.staying before.states ts) ts)
    c.allAtomic_empty

theorem allAtomic_plan (hw : c.WellFormed) {histories : Histories} (hh : histories.Known c)
    {before : Status} (hstates : c.AllAtomic before.states) (ts : List Nat) :
    c.AllAtomic (c.plan histories before ts).next := by
  intro s hs
  rcases StateSet.mem_union.1 hs with hs | hs
  · exact hstates s (StateSet.mem_diff.1 hs).1
  · exact allAtomic_targets hw hh before ts s hs

theorem plan_lt_size (hw : c.WellFormed) {histories : Histories} (hh : histories.Known c)
    {before : Status} (hstates : ∀ s ∈ before.states, s < c.nodes.size) (ts : List Nat) :
    ∀ x ∈ (c.plan histories before ts).entryList, x < c.nodes.size := by
  intro x hx
  have hnext : ∀ s ∈ (c.plan histories before ts).next, s < c.nodes.size := by
    intro s hs
    rcases StateSet.mem_union.1 hs with hs | hs
    · exact hstates s (StateSet.mem_diff.1 hs).1
    · exact (allAtomic_targets hw hh before ts s hs).2
  exact lt_size_of_mem_closure hw hnext (mem_entryList.1 hx).1

end Chart

theorem Histories.Known.recordExit {c : Chart} (hw : c.WellFormed) {histories : Histories}
    (hh : histories.Known c) {before : Status} (hstates : ∀ s ∈ before.states, s < c.nodes.size)
    (s : Nat) : (histories.recordExit c s before).Known c := by
  intro h states hget
  rcases get?_recordExit hw hget with hget | ⟨hparent, depth, rfl⟩
  · exact hh h states hget
  · refine ⟨Chart.lt_size_of_parent hparent, ?_⟩
    intro x hx
    cases depth with
    | deep => exact hstates x (StateSet.mem_filter.1 hx).1
    | shallow =>
      simp only [remembered, StateSet.mem_ofList, List.mem_filter] at hx
      exact (hw.ordinary_of_mem_children hx.1).1

theorem Histories.Known.recordAll {c : Chart} (hw : c.WellFormed) {histories : Histories}
    (hh : histories.Known c) {before : Status} (hstates : ∀ s ∈ before.states, s < c.nodes.size)
    (exits : List Nat) :
    (exits.foldl (fun histories s => histories.recordExit c s before) histories).Known c := by
  induction exits generalizing histories with
  | nil => exact hh
  | cons s rest ih => exact ih (hh.recordExit hw hstates s)

namespace Session

/-- Every number that a session holds is that of a node. -/
structure Known (c : Chart) (session : Session) : Prop where
  active : ∀ s ∈ session.configuration.active, c.Ordinary s
  status : ∀ s ∈ session.status.states, s < c.nodes.size
  histories : session.histories.Known c
  completed : ∀ s ∈ session.completed, s < c.nodes.size
  invokes : ∀ s, (session.invokes.get? s).isSome → s < c.nodes.size
  pending : ∀ s ∈ session.pendingInvokes, s < c.nodes.size

/-- The status shows the configuration as it is, and so does the variable that lists the active
states. -/
structure Published (c : Chart) (session : Session) : Prop where
  status : session.status = Status.capture c session.configuration session.status.pending
  allStates : (session.scopes.vars systemScope).get? SystemVariable.allStates =
    some (.list ((c.idsOf session.status.all.members).map .text))

end Session

section Effects

variable {σ : Type} {c : Chart} {layout : Option Bool} {r s : Run σ}

/-- Content and services leave the layout of the scopes and the system scope alone. -/
theorem Acts.laidOut (h : Acts r s) (hr : r.session.LaidOut c layout) :
    s.session.LaidOut c layout ∧
      s.session.scopes.vars Session.systemScope = r.session.scopes.vars Session.systemScope := by
  induction h with
  | trans _ _ hrs hst =>
    obtain ⟨hs, hvars⟩ := hrs hr
    obtain ⟨ht, hvars'⟩ := hst hs
    exact ⟨ht, hvars'.trans hvars⟩
  | @write r n name hn value =>
    have hne := hr.ne_systemScope hn
    have hvars : (r.session.scopes.setLocal n name value).vars Session.systemScope =
        r.session.scopes.vars Session.systemScope := Scopes.vars_modifyVars_of_ne (Ne.symm hne) _
    refine ⟨⟨hr.homes, ?_, ?_⟩, hvars⟩
    · exact (Scopes.shape_setLocal n name value).trans hr.shape
    · intro other hevent hall
      exact (congrArg (fun vars => SortedMap.get? vars other) hvars).trans
        (hr.system other hevent hall)
  | _ => exact ⟨⟨hr.homes, hr.shape, hr.system⟩, rfl⟩

theorem Acts.known (h : Acts r s) (hr : r.session.Known c) : s.session.Known c := by
  induction h with
  | trans _ _ hrs hst => exact hst (hrs hr)
  | forgetAll r =>
    refine ⟨hr.active, hr.status, hr.histories, hr.completed, hr.invokes, ?_⟩
    exact fun x hx => absurd hx (StateSet.not_mem_empty x)
  | @keepInvoke r s hs invokeId =>
    refine ⟨hr.active, hr.status, hr.histories, hr.completed, ?_, hr.pending⟩
    intro x hx
    simp only [Run.keepInvoke, Run.mapSession, SortedMap.get?_insert] at hx
    split at hx
    · next hxs =>
      rw [hxs]
      exact (hr.active s hs).1
    · exact hr.invokes x hx
  | dropInvokes r s =>
    refine ⟨hr.active, hr.status, hr.histories, hr.completed, ?_, hr.pending⟩
    intro x hx
    simp only [Run.mapSession, SortedMap.get?_erase] at hx
    split at hx
    · cases hx
    · exact hr.invokes x hx
  | _ => exact ⟨hr.active, hr.status, hr.histories, hr.completed, hr.invokes, hr.pending⟩

/-- Marks lie outside the scopes. -/
theorem Evolves.laidOut {known : Nat → Prop} (h : Evolves known r s)
    (hr : r.session.LaidOut c layout) :
    s.session.LaidOut c layout ∧
      s.session.scopes.vars Session.systemScope = r.session.scopes.vars Session.systemScope := by
  induction h with
  | acts h => exact h.laidOut hr
  | trans _ _ hrs hst =>
    obtain ⟨hs, hvars⟩ := hrs hr
    obtain ⟨ht, hvars'⟩ := hst hs
    exact ⟨ht, hvars'.trans hvars⟩
  | _ => exact ⟨⟨hr.homes, hr.shape, hr.system⟩, rfl⟩

theorem Evolves.known (h : Evolves (· < c.nodes.size) r s) (hr : r.session.Known c) :
    s.session.Known c := by
  induction h with
  | acts h => exact h.known hr
  | trans _ _ hrs hst => exact hst (hrs hr)
  | @complete r s hs =>
    refine ⟨hr.active, hr.status, hr.histories, ?_, hr.invokes, hr.pending⟩
    intro x hx
    rcases StateSet.mem_insert.1 hx with rfl | hx
    · exact hs
    · exact hr.completed x hx
  | withdraw r s =>
    refine ⟨hr.active, hr.status, hr.histories, ?_, hr.invokes, hr.pending⟩
    exact fun x hx => hr.completed x (StateSet.mem_erase.1 hx).1
  | @await r s hs =>
    refine ⟨hr.active, hr.status, hr.histories, hr.completed, hr.invokes, ?_⟩
    intro x hx
    rcases StateSet.mem_insert.1 hx with rfl | hx
    · exact hs
    · exact hr.pending x hx
  | forget r s =>
    refine ⟨hr.active, hr.status, hr.histories, hr.completed, hr.invokes, ?_⟩
    exact fun x hx => hr.pending x (StateSet.mem_erase.1 hx).1
  | raiseDone r id =>
    exact ⟨hr.active, hr.status, hr.histories, hr.completed, hr.invokes, hr.pending⟩

end Effects

namespace Session

variable {c : Chart} {layout : Option Bool} {session : Session}

theorem Known.publish (h : session.Known c) : (session.publish c).Known c where
  active := h.active
  status := fun s hs => (h.active s (StateSet.mem_filter.1 hs).1).1
  histories := h.histories
  completed := h.completed
  invokes := h.invokes
  pending := h.pending

/-- Of the system scope, setting or removing a variable changes that variable. -/
theorem LaidOut.modifySystem (h : LaidOut c layout session) {f : Vars → Vars}
    (hf : ∀ vars name, name ≠ SystemVariable.event → name ≠ SystemVariable.allStates →
      (f vars).get? name = vars.get? name) :
    LaidOut c layout { session with scopes := session.scopes.modifyVars systemScope f } where
  homes := h.homes
  shape := (Scopes.shape_modifyVars _ _).trans h.shape
  system name hevent hall := by
    change ((session.scopes.modifyVars systemScope f).vars systemScope).get? name = _
    rw [Scopes.vars_modifyVars h.system_lt_length, if_pos rfl, hf _ name hevent hall]
    exact h.system name hevent hall

theorem LaidOut.publish (h : LaidOut c layout session) : LaidOut c layout (session.publish c) := by
  have hset := h.modifySystem (f := fun vars => vars.insert SystemVariable.allStates
    (.list ((c.idsOf (Status.capture c session.configuration
      session.internal.length).all.members).map .text))) (by
        intro vars name _ hall
        rw [SortedMap.get?_insert, if_neg hall])
  exact ⟨hset.homes, hset.shape, hset.system⟩

theorem LaidOut.bindEvent (h : LaidOut c layout session) (event : Option Event) :
    LaidOut c layout (session.bindEvent event) := by
  cases event with
  | some e =>
    apply h.modifySystem
    intro vars name hevent _
    rw [SortedMap.get?_insert, if_neg hevent]
  | none =>
    apply h.modifySystem
    intro vars name hevent _
    rw [SortedMap.get?_erase, if_neg hevent]

/-- After publishing, what is published is up to date. -/
theorem published_publish (h : LaidOut c layout session) : (session.publish c).Published c where
  status := rfl
  allStates := by
    simp only [Session.publish]
    rw [Scopes.vars_setLocal h.system_lt_length, if_pos rfl, SortedMap.get?_insert, if_pos rfl]

theorem Published.bindEvent (h : session.Published c) (hl : LaidOut c layout session)
    (event : Option Event) : (session.bindEvent event).Published c where
  status := h.status
  allStates := by
    have hsystem := hl.system_lt_length
    have hne : SystemVariable.allStates ≠ SystemVariable.event := by decide
    refine Eq.trans ?_ h.allStates
    cases event with
    | some e =>
      simp only [Session.bindEvent]
      rw [Scopes.vars_setLocal hsystem, if_pos rfl, SortedMap.get?_insert, if_neg hne]
    | none =>
      simp only [Session.bindEvent, Scopes.removeLocal]
      rw [Scopes.vars_modifyVars hsystem, if_pos rfl, SortedMap.get?_erase, if_neg hne]

/-- What is true of a session after every operation. -/
structure Sound (c : Chart) (shared : Bool) (session : Session) : Prop where
  known : session.Known c
  laidOut : LaidOut c shared session
  published : session.running = true → session.Published c

end Session

theorem Evolves.sound {σ : Type} {c : Chart} {shared : Bool} {r s : Run σ}
    (h : Evolves (· < c.nodes.size) r s) (hr : r.session.Sound c shared) :
    s.session.Sound c shared where
  known := h.known hr.known
  laidOut := (h.laidOut hr.laidOut).1
  published hrunning := by
    rw [h.running] at hrunning
    obtain ⟨hstatus, hall⟩ := hr.published hrunning
    refine ⟨?_, ?_⟩
    · rw [h.status, h.configuration]
      exact hstatus
    · rw [(h.laidOut hr.laidOut).2, h.status]
      exact hall

theorem Acts.sound {σ : Type} {c : Chart} {shared : Bool} {r s : Run σ} (h : Acts r s)
    (hr : r.session.Sound c shared) : s.session.Sound c shared :=
  (Evolves.acts h).sound hr

namespace Configuration

variable {c : Chart}

theorem active_changeAll_exit {conf conf' : Configuration} {exits : List Nat}
    {failure : Option ConfigurationError}
    (h : changeAll (fun conf s => conf.exit c s) conf exits = (failure, conf')) :
    ∀ x ∈ conf'.active, x ∈ conf.active := by
  induction exits generalizing conf with
  | nil =>
    obtain ⟨-, rfl⟩ := Prod.mk.inj h
    exact fun x hx => hx
  | cons s rest ih =>
    rw [changeAll] at h
    split at h
    · next conf₁ hexit =>
      rw [exit] at hexit
      split at hexit
      · obtain rfl := Except.ok.inj hexit
        exact fun x hx => (StateSet.mem_erase.1 (ih h x hx)).1
      · cases hexit
    · obtain ⟨-, rfl⟩ := Prod.mk.inj h
      exact fun x hx => hx

theorem active_changeAll_enter {conf conf' : Configuration} {entries : List Nat}
    {failure : Option ConfigurationError}
    (h : changeAll (fun conf s => conf.enter c s) conf entries = (failure, conf')) :
    ∀ x ∈ conf'.active, x ∈ conf.active ∨ x ∈ entries ∧ c.isPseudo x = false := by
  induction entries generalizing conf with
  | nil =>
    obtain ⟨-, rfl⟩ := Prod.mk.inj h
    exact fun x hx => .inl hx
  | cons s rest ih =>
    rw [changeAll] at h
    split at h
    · next conf₁ henter =>
      rw [enter] at henter
      split at henter
      · cases henter
      · next hordinary =>
        split at henter
        · cases henter
        · obtain rfl := Except.ok.inj henter
          intro x hx
          rcases ih h x hx with hx | ⟨hx, hpseudo⟩
          · rcases StateSet.mem_insert.1 hx with rfl | hx
            · exact .inr ⟨by simp, by simpa using hordinary⟩
            · exact .inl hx
          · exact .inr ⟨List.mem_cons_of_mem s hx, hpseudo⟩
    · obtain ⟨-, rfl⟩ := Prod.mk.inj h
      exact fun x hx => .inl hx

theorem ordinary_move {conf : Configuration} {exits entries : List Nat}
    (hconf : ∀ x ∈ conf.active, c.Ordinary x) (hentries : ∀ x ∈ entries, x < c.nodes.size) :
    ∀ x ∈ (conf.move c exits entries).2.active, c.Ordinary x := by
  obtain ⟨failure, left, hleft⟩ : ∃ failure left,
      changeAll (fun conf s => conf.exit c s) conf exits = (failure, left) := ⟨_, _, rfl⟩
  have hordinary : ∀ x ∈ left.active, c.Ordinary x :=
    fun x hx => hconf x (active_changeAll_exit hleft x hx)
  rw [move, hleft]
  cases failure with
  | some e => exact hordinary
  | none =>
    intro x hx
    rcases active_changeAll_enter rfl x hx with hx | ⟨hx, hpseudo⟩
    · exact hordinary x hx
    · exact ⟨hentries x hx, hpseudo⟩

end Configuration

namespace Interpreter

variable {σ : Type} {m : Interpreter σ}

/-- The session of the run is sound. -/
def SoundRun (m : Interpreter σ) (r : Run σ) : Prop :=
  r.session.Sound m.chart m.evaluator.sharesContext

/-- What a step that ends in an error leaves of a session: nothing need be published. -/
def BrokenRun (m : Interpreter σ) (r : Run σ) : Prop :=
  r.session.Known m.chart ∧ r.session.LaidOut m.chart m.evaluator.sharesContext

theorem SoundRun.broken {r : Run σ} (h : m.SoundRun r) : m.BrokenRun r :=
  ⟨h.known, h.laidOut⟩

/-- What a step makes of a session, before it is published. -/
theorem known_moved (hw : m.chart.WellFormed) {r : Run σ} (h : r.session.Known m.chart)
    {step : Step}
    (hentry : ∀ s ∈ step.entryList, s < m.chart.nodes.size) :
    ({ (m.runContent step r).session with
      configuration := ((m.runContent step r).session.configuration.move m.chart step.exitList
        step.entryList).2 } : Session).Known m.chart := by
  have hknown := (m.evolves_runContent hw.parent_lt_size hentry r).known h
  exact { hknown with active := Configuration.ordinary_move hknown.active hentry }

theorem sound_carryOut (hw : m.chart.WellFormed) {r : Run σ} (h : m.BrokenRun r) {step : Step}
    (hentry : ∀ s ∈ step.entryList, s < m.chart.nodes.size) :
    Leaves m.SoundRun (fun _ => m.BrokenRun) (m.carryOut step r) := by
  have hlaid := ((m.evolves_runContent hw.parent_lt_size hentry r).laidOut h.2).1
  have hmoved := known_moved hw h.1 hentry
  unfold carryOut moveConfiguration
  split
  · next e conf hmove =>
    rw [hmove] at hmoved
    exact ⟨hmoved, { hlaid with }⟩
  · next conf hmove =>
    rw [hmove] at hmoved
    have hlaid' : ({ (m.runContent step r).session with configuration := conf } :
        Session).LaidOut m.chart m.evaluator.sharesContext := { hlaid with }
    exact ⟨hmoved.publish, hlaid'.publish, fun _ => Session.published_publish hlaid'⟩

theorem sound_bind {r : Run σ} (h : m.SoundRun r) (event : Option Event) :
    m.SoundRun (r.mapSession (·.bindEvent event)) where
  known := { h.known with }
  laidOut := h.laidOut.bindEvent event
  published hrunning := (h.published hrunning).bindEvent h.laidOut event

theorem BrokenRun.reports {r s : Run σ} (h : m.BrokenRun r) (hreports : Reports r s) :
    m.BrokenRun s := by
  unfold BrokenRun
  rw [hreports.notes.session]
  exact h

theorem sound_microstep (hw : m.chart.WellFormed) (event : Option Event) {r : Run σ}
    (h : m.SoundRun r) : Leaves m.SoundRun (fun _ => m.BrokenRun) (m.microstep event r) := by
  have hselected : m.SoundRun (m.selectFor event r).2 :=
    (m.acts_selectFor event r).sound (sound_bind h event)
  refine leaves_microstep event hselected ?_ ?_
  · intro s t e hs hreports
    exact hs.broken.reports hreports
  · intro ts s t step _ hs hreports
    obtain ⟨hknown, hlaid⟩ := hs.broken.reports hreports
    have hrecorded : m.BrokenRun (m.recordFor (m.planFor ts s) t) :=
      ⟨{ hknown with histories := hknown.histories.recordAll hw hknown.status _ },
        { hlaid with }⟩
    exact sound_carryOut hw hrecorded
      (Chart.plan_lt_size hw hs.known.histories hs.known.status ts)

theorem known_new (c : Chart) (id : SessionId) : (Session.new id).Known c where
  active s hs := absurd hs (StateSet.not_mem_empty s)
  status s hs := absurd hs (StateSet.not_mem_empty s)
  histories _ _ hget := nomatch hget
  completed s hs := absurd hs (StateSet.not_mem_empty s)
  invokes _ hs := nomatch hs
  pending s hs := absurd hs (StateSet.not_mem_empty s)

theorem known_fresh (c : Chart) (shared : Bool) (id : SessionId) :
    (Session.fresh c shared id).Known c :=
  { known_new c id with }

theorem sound_fresh (c : Chart) (shared : Bool) (id : SessionId) :
    (Session.fresh c shared id).Sound c shared :=
  ⟨known_fresh c shared id, Session.laidOut_fresh c shared id, fun hrunning => nomatch hrunning⟩

/-- A reset leads to a session that is sound and published, from wherever it starts. -/
theorem sound_reset (m : Interpreter σ) (r : Run σ) :
    (m.reset r).session.Known m.chart ∧
      (m.reset r).session.LaidOut m.chart m.evaluator.sharesContext ∧
      (m.reset r).session.Published m.chart := by
  have hdata : Acts (m.clear r) (m.initializeData (m.clear r)) :=
    m.acts_initializeData (m.clear r)
  have hlaid := (hdata.laidOut (Session.laidOut_fresh m.chart m.evaluator.sharesContext _)).1
  exact ⟨(hdata.known (known_fresh _ _ _)).publish, hlaid.publish,
    Session.published_publish hlaid⟩

theorem sound_initialStep (hw : m.chart.WellFormed) {r : Run σ} (h : m.SoundRun r) :
    Leaves m.SoundRun (fun _ => m.BrokenRun) (m.initialStep r) := by
  refine leaves_initialStep (fun hreports => h.broken.reports hreports) ?_ ?_
  · intro t hreports
    refine sound_carryOut hw (h.broken.reports hreports) ?_
    intro s hs
    cases hs
  · intro t hreports
    exact sound_carryOut hw (h.broken.reports hreports)
      (Chart.planStart_lt_size hw h.known.histories)

/-- A session is started in a sound state, whatever it was before. -/
theorem sound_start (hw : m.chart.WellFormed) (r : Run σ) :
    Leaves m.SoundRun (fun _ => m.BrokenRun)
      (m.initialStep ((m.reset r).mapSession fun session => { session with running := true })) := by
  obtain ⟨hknown, hlaid, hpublished⟩ := m.sound_reset r
  apply sound_initialStep hw
  exact ⟨{ hknown with }, { hlaid with }, fun _ => { hpublished with }⟩

/-- Sessions stay sound through all operations. -/
theorem invariant_sound (hw : m.chart.WellFormed) :
    m.Invariant m.SoundRun (fun _ => m.BrokenRun) where
  evolves h hevolves := hevolves.sound h
  take _ h := ⟨{ h.known with }, { h.laidOut with }, fun hrunning => { h.published hrunning with }⟩
  publishPending {r} h := by
    refine ⟨{ h.known with }, { h.laidOut with }, fun hrunning => ⟨?_, ?_⟩⟩
    · exact congrArg
        (fun status : Status => { status with pending := r.session.internal.length })
        (h.published hrunning).status
    · exact (h.published hrunning).allStates
  halt h := ⟨{ h.known with }, { h.laidOut with }, fun hrunning => nomatch hrunning⟩
  fail {e r} h := by
    have hcancelled := m.acts_cancelAllInvokes r
    have hknown := hcancelled.known h.1
    have hlaid := (hcancelled.laidOut h.2).1
    exact ⟨{ hknown with }, { hlaid with }, fun hrunning => nomatch hrunning⟩
  reset {r} h := ⟨(m.sound_reset r).1, (m.sound_reset r).2.1, fun _ => (m.sound_reset r).2.2⟩
  start {r} _ := sound_start hw r
  microstep event h := sound_microstep hw event h

/-- A new session is not laid out yet; any other is sound between operations. -/
def NewOrSound (m : Interpreter σ) (r : Run σ) : Prop :=
  (∃ id, r.session = .new id) ∨ m.SoundRun r

theorem NewOrSound.sound {r : Run σ} (h : m.NewOrSound r) (hrunning : r.session.running = true) :
    m.SoundRun r := by
  rcases h with ⟨id, hnew⟩ | hsound
  · rw [hnew] at hrunning
    cases hrunning
  · exact hsound

theorem lasts_sound (hw : m.chart.WellFormed) :
    m.Lasts m.SoundRun (fun _ => m.BrokenRun) m.NewOrSound where
  microstep event h := sound_microstep hw event h
  take h htake := (invariant_sound hw).takeInternal h htake
  startInvokes {r} h := (m.acts_startInvokes r).sound h
  settled h := .inr ((invariant_sound hw).settled h)
  exhausted h := .inr ((invariant_sound hw).exhausted h)
  fail {e _} h := .inr ((invariant_sound hw).fail (e := e) h)
  start {r} _ := sound_start hw r
  running h hrunning := h.sound hrunning
  reset {r} _ :=
    .inr ⟨(m.sound_reset r).1, (m.sound_reset r).2.1, fun _ => (m.sound_reset r).2.2⟩
  stop {r} h := by
    refine h.imp ?_ (invariant_sound hw).stop
    rintro ⟨id, hnew⟩
    refine ⟨id, ?_⟩
    rw [stop, m.cancelAllInvokes_new hnew, Run.mapSession, hnew]
    rfl

/-- What a session holds stays known through all operations, whatever its status shows. -/
theorem known_carryOut (hw : m.chart.WellFormed) {r : Run σ} (h : r.session.Known m.chart)
    {step : Step} (hentry : ∀ s ∈ step.entryList, s < m.chart.nodes.size) :
    (m.carryOut step r).2.session.Known m.chart := by
  have hmoved := known_moved hw h hentry
  unfold carryOut moveConfiguration
  split
  · next hmove =>
    rw [hmove] at hmoved
    exact hmoved
  · next hmove =>
    rw [hmove] at hmoved
    exact hmoved.publish

theorem invariant_known (hw : m.chart.WellFormed) :
    m.Invariant (·.session.Known m.chart) (fun _ r => r.session.Known m.chart) where
  evolves h hevolves := hevolves.known h
  take _ h := { h with }
  publishPending h := { h with }
  halt h := { h with }
  fail {e r} h := { (m.acts_cancelAllInvokes r).known h with }
  reset {r} _ := (m.sound_reset r).1
  start {r} h := by
    have hready : (m.reset r).session.Known m.chart := (m.sound_reset r).1
    refine leaves_initialStep (fun hreports => ?_) (fun hreports => leaves_iff.2 ?_)
      (fun hreports => leaves_iff.2 ?_)
    · rw [hreports.notes.session]
      exact { hready with }
    · refine known_carryOut hw ?_ ?_
      · rw [hreports.notes.session]
        exact { hready with }
      · intro s hs
        cases hs
    · refine known_carryOut hw ?_ ?_
      · rw [hreports.notes.session]
        exact { hready with }
      · exact Chart.planStart_lt_size hw hready.histories
  microstep {r} event h := by
    have hselected : (m.selectFor event r).2.session.Known m.chart :=
      (m.acts_selectFor event r).known { h with }
    refine leaves_microstep event hselected (fun hs hreports => ?_)
      (fun {ts s t step} _ hs hreports => leaves_iff.2 ?_)
    · rw [hreports.notes.session]
      exact hs
    · have ht : t.session.Known m.chart := by
        rw [hreports.notes.session]
        exact hs
      have hrecorded : (m.recordFor (m.planFor ts s) t).session.Known m.chart :=
        { ht with histories := ht.histories.recordAll hw ht.status _ }
      exact known_carryOut hw hrecorded (Chart.plan_lt_size hw hs.histories hs.status ts)

/-- No event is bound. -/
def Unbound (r : Run σ) : Prop :=
  (r.session.scopes.vars Session.systemScope).get? SystemVariable.event = none

/-- If the session runs, its status tells how many internal events wait, and no event is
bound. -/
def AtRest (r : Run σ) : Prop :=
  r.session.running = true →
    r.session.status.pending = r.session.internal.length ∧ Unbound r

theorem unbound_select {r : Run σ} (h : m.SoundRun r) : Unbound (m.selectFor none r).2 := by
  have hbound := sound_bind h none
  have hsystem := h.laidOut.system_lt_length
  unfold Unbound
  rw [((m.acts_selectFor none r).laidOut hbound.laidOut).2]
  simp only [Run.mapSession, Session.bindEvent, Scopes.removeLocal]
  rw [Scopes.vars_modifyVars hsystem, if_pos rfl, SortedMap.get?_erase, if_pos rfl]

/-- After a round in which there was nothing to do no event is bound. -/
theorem unbound_round {r s : Run σ} (h : m.SoundRun r) (hround : m.round r = .idle s) :
    Unbound s := by
  have hselect := unbound_select h
  rwa [(m.round_idle hround).1] at hselect

theorem atRest_settled {r : Run σ} (h : Unbound r) : AtRest (m.settled r) := by
  unfold settled
  dsimp only
  split
  · intro hrunning
    cases hrunning
  · exact fun _ => ⟨rfl, h⟩

/-- A macrostep that does not fail comes to rest. -/
theorem atRest_settle (hw : m.chart.WellFormed) (budget : Nat) {r : Run σ} (h : m.SoundRun r) :
    Leaves AtRest (fun _ _ => True) (m.settle budget r) := by
  have hinvariant := invariant_sound hw
  induction budget generalizing r with
  | zero =>
    intro hrunning
    cases hrunning
  | succ budget ih =>
    have hround := hinvariant.round h
    rw [settle]
    dsimp only
    split
    · trivial
    · next hmoved =>
      rw [hmoved] at hround
      exact (ih hround).map _
    · next s hidle =>
      rw [hidle] at hround
      have hacts := m.acts_startInvokes s
      have hstarted : m.SoundRun (m.startInvokes s) := hacts.sound hround
      have hagain := hinvariant.round hstarted
      have hunbound : Unbound (m.startInvokes s) := by
        unfold Unbound
        rw [(hacts.laidOut hround.laidOut).2]
        exact unbound_round h hidle
      split
      · exact atRest_settled hunbound
      · split
        · trivial
        · next hmoved =>
          rw [hmoved] at hagain
          exact (ih hagain).map _
        · next hidle' => exact atRest_settled (unbound_round hstarted hidle')

theorem atRest_complete (hw : m.chart.WellFormed) {first : Except StepError Step × Run σ}
    (h : Leaves m.SoundRun (fun _ => m.BrokenRun) first) : AtRest (m.complete first).2 := by
  obtain ⟨result, r⟩ := first
  cases result with
  | error e =>
    intro hrunning
    cases hrunning
  | ok step =>
    have hsettle := atRest_settle hw m.config.maxMicrosteps h
    unfold complete
    dsimp only
    obtain ⟨rest, s, hs⟩ : ∃ rest s, m.settle m.config.maxMicrosteps r = (rest, s) := ⟨_, _, rfl⟩
    rw [hs] at hsettle ⊢
    cases rest with
    | error e =>
      intro hrunning
      cases hrunning
    | ok rest => exact hsettle

theorem atRest_operate (hw : m.chart.WellFormed) (operation : Operation) {r : Run σ}
    (h : m.NewOrSound r) (hrest : AtRest r) : AtRest (m.operate operation r).2 := by
  cases operation with
  | go => exact atRest_complete hw (sound_start hw r)
  | reset =>
    intro hrunning
    rw [show (m.operate .reset r).2.session.running = false from m.running_reset r] at hrunning
    cases hrunning
  | stop =>
    intro hrunning
    cases hrunning
  | trigger event =>
    simp only [operate, trigger]
    split
    · exact hrest
    · next hrunning =>
      split
      · intro hrunning
        cases hrunning
      · exact atRest_complete hw
          (sound_microstep hw (some event) (h.sound (by simpa using hrunning)))

end Interpreter

end Statechart
