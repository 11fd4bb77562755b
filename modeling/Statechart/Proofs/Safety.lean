import Statechart.Proofs.Operations
import Statechart.Proofs.Planning

/-!
Safety of runs. The transitions that are selected can fire together, so the plan of every step
fits what is active; by induction over the microsteps and over the operations the configuration
stays legal, no step ends in an error and no violation is ever reported.
-/

namespace Statechart

variable {σ : Type}

namespace Interpreter

variable (m : Interpreter σ)

theorem mem_of_firstEnabled {transitions : List Nat} {verdicts : Verdicts} {r : Run σ} {t : Nat}
    (h : (m.firstEnabled transitions verdicts r).1 = some t) : t ∈ transitions := by
  induction transitions generalizing verdicts r with
  | nil => cases h
  | cons u rest ih =>
    have hu : some u = some t → t ∈ u :: rest := by
      rintro ⟨⟩
      simp
    unfold firstEnabled at h
    split at h
    · exact hu h
    · exact List.mem_cons_of_mem u (ih h)
    · dsimp only at h
      split at h
      · exact hu h
      · exact List.mem_cons_of_mem u (ih h)

theorem mem_of_enabled {candidates : List Candidate} {verdicts : Verdicts} {r : Run σ} {t : Nat}
    (h : t ∈ (m.enabled candidates verdicts r).1) :
    ∃ candidate ∈ candidates, t ∈ candidate.transitions := by
  induction candidates generalizing verdicts r with
  | nil => cases h
  | cons candidate rest ih =>
    have hrest : ∀ {verdicts : Verdicts} {r : Run σ}, t ∈ (m.enabled rest verdicts r).1 →
        ∃ candidate' ∈ candidate :: rest, t ∈ candidate'.transitions := by
      intro verdicts r h
      obtain ⟨candidate', hmem, ht⟩ := ih h
      exact ⟨candidate', List.mem_cons_of_mem candidate hmem, ht⟩
    unfold enabled at h
    dsimp only at h
    split at h
    · next u hfirst =>
      rcases List.mem_cons.1 h with rfl | h
      · exact ⟨candidate, by simp, m.mem_of_firstEnabled hfirst⟩
      · exact hrest (List.mem_filter.1 h).1
    · exact hrest h

/-- What is kept was there before or is one of the transitions gone through, and no two of what
is kept leave a state in common. -/
theorem dropConflicts_spec (states : StateSet) (kept : List (Nat × StateSet))
    (transitions : List Nat) (r : Run σ)
    (hkept : ∀ k ∈ kept, k.2 = m.chart.exitSet (m.chart.transition k.1) states)
    (hdisjoint : (kept.map Prod.fst).Pairwise fun t u =>
      m.chart.inConflict (m.chart.transition t) (m.chart.transition u) states = false) :
    (∀ t ∈ (m.dropConflicts states kept transitions r).1,
      t ∈ kept.map Prod.fst ∨ t ∈ transitions) ∧
    (m.dropConflicts states kept transitions r).1.Pairwise fun t u =>
      m.chart.inConflict (m.chart.transition t) (m.chart.transition u) states = false := by
  induction transitions generalizing kept r with
  | nil => exact ⟨fun t ht => .inl ht, hdisjoint⟩
  | cons t rest ih =>
    unfold dropConflicts
    dsimp only
    split
    · next hfind =>
      obtain ⟨hmem, hpairwise⟩ := ih kept (m.reportDropped t _ r) hkept hdisjoint
      exact ⟨fun u hu => (hmem u hu).imp_right (List.mem_cons_of_mem t), hpairwise⟩
    · next hfind =>
      have hclear : ∀ k ∈ kept, m.chart.inConflict (m.chart.transition k.1)
          (m.chart.transition t) states = false := by
        intro k hk
        have hk' := List.find?_eq_none.1 hfind k hk
        rw [hkept k hk] at hk'
        simpa [Chart.inConflict] using hk'
      obtain ⟨hmem, hpairwise⟩ := ih
        (kept ++ [(t, m.chart.exitSet (m.chart.transition t) states)]) r
        (by
          intro k hk
          rcases List.mem_append.1 hk with hk | hk
          · exact hkept k hk
          · rw [List.mem_singleton.1 hk])
        (by
          rw [List.map_append, List.pairwise_append]
          refine ⟨hdisjoint, List.pairwise_singleton _ _, ?_⟩
          intro u hu v hv
          obtain ⟨k, hk, rfl⟩ := List.mem_map.1 hu
          obtain rfl : v = t := by simpa using hv
          exact hclear k hk)
      refine ⟨?_, hpairwise⟩
      intro u hu
      rcases hmem u hu with hu | hu
      · rw [List.map_append, List.mem_append] at hu
        apply hu.imp_right
        intro hut
        rw [show u = t by simpa using hut]
        simp
      · exact .inr (List.mem_cons_of_mem t hu)

/-- The transitions that are selected can fire together. -/
theorem fireTogether_select (hw : m.chart.WellFormed) (event : Option String)
    (states : StateSet) (r : Run σ) :
    m.chart.FireTogether states
      (m.select (m.chart.candidates event states) states r).1 := by
  obtain ⟨hmem, hdisjoint⟩ := m.dropConflicts_spec states []
    (m.enabled (m.chart.candidates event states) ∅ r).1
    (m.enabled (m.chart.candidates event states) ∅ r).2 (by simp) .nil
  have hfound : ∀ t ∈ (m.select (m.chart.candidates event states) states r).1,
      ∃ s ∈ states, ∃ a, m.chart.Within s a ∧ t ∈ (m.chart.node a).transitions := by
    intro t ht
    obtain ⟨candidate, hcandidate, ht⟩ := m.mem_of_enabled ((hmem t ht).resolve_left (by simp))
    rw [Chart.candidates, List.mem_filter, List.mem_map] at hcandidate
    obtain ⟨⟨s, hs, rfl⟩, -⟩ := hcandidate
    rw [Chart.matching, List.mem_flatMap] at ht
    obtain ⟨a, ha, ht⟩ := ht
    exact ⟨s, hs, a, ha, (List.mem_filter.1 ht).1⟩
  refine ⟨?_, ?_, hdisjoint⟩
  · intro t ht
    obtain ⟨s, -, a, -, hta⟩ := hfound t ht
    exact (hw.mem_transitions.1 hta).1
  · intro t ht
    obtain ⟨s, hs, a, ha, hta⟩ := hfound t ht
    rw [(hw.mem_transitions.1 hta).2]
    exact hw.mem_closure.2 ⟨s, hs, ha⟩

end Interpreter

/-- The configuration is legal, what is published of it is up to date, and histories remember
what can be active inside their states. -/
structure Regular (c : Chart) (r : Run σ) : Prop where
  legal : c.Legal r.session.configuration.active
  states : r.session.status.states = r.session.configuration.atomic c
  all : r.session.status.all = r.session.configuration.active
  remembers : c.Remembers r.session.histories

/-- No violation has been reported, and something is active while the session runs. -/
structure Run.Orderly (r : Run σ) : Prop where
  quiet : r.Quiet
  active : r.session.running = true → ∃ s, s ∈ r.session.configuration.active

/-- The run `r` is regular, and orderly if the run `start` was. -/
structure Steady (c : Chart) (start r : Run σ) : Prop extends Regular c r where
  orderly : start.Orderly → r.Orderly

theorem Regular.congr {c : Chart} {r s : Run σ} (h : Regular c r)
    (hconf : s.session.configuration = r.session.configuration)
    (hstates : s.session.status.states = r.session.status.states)
    (hall : s.session.status.all = r.session.status.all)
    (hhistories : s.session.histories = r.session.histories) : Regular c s where
  legal := by rw [hconf]; exact h.legal
  states := by rw [hconf, hstates]; exact h.states
  all := by rw [hconf, hall]; exact h.all
  remembers := by rw [hhistories]; exact h.remembers

theorem Regular.closure {c : Chart} (hw : c.WellFormed) {r : Run σ} (h : Regular c r) :
    r.session.status.all = c.closure r.session.status.states.members := by
  rw [h.all, h.states]
  exact (hw.closure_of_legal h.legal).symm

/-- Where nothing is active or remembered, all is as it should be. -/
theorem Regular.of_empty {c : Chart} {r : Run σ} (hconf : r.session.configuration = .empty)
    (hhistories : r.session.histories = ∅) (hstates : r.session.status.states = ∅)
    (hall : r.session.status.all = ∅) : Regular c r where
  legal := by rw [hconf]; exact Chart.legal_empty
  states := by rw [hconf, hstates]; rfl
  all := by rw [hconf, hall]; rfl
  remembers := by rw [hhistories]; exact remembers_empty

theorem Regular.steady {c : Chart} {r : Run σ} (h : Regular c r) : Steady c r r :=
  ⟨h, id⟩

theorem Run.Orderly.congr {r s : Run σ} (h : r.Orderly)
    (hconf : s.session.configuration = r.session.configuration)
    (hquiet : r.Quiet → s.Quiet)
    (hrunning : s.session.running = true → r.session.running = true) : s.Orderly where
  quiet := hquiet h.quiet
  active := fun h' => by rw [hconf]; exact h.active (hrunning h')

namespace Steady

variable {c : Chart} {start r s : Run σ}

theorem evolves {known : Nat → Prop} (h : Steady c start r) (hevolves : Evolves known r s) :
    Steady c start s where
  toRegular := h.congr hevolves.configuration (by rw [hevolves.status])
    (by rw [hevolves.status]) hevolves.histories
  orderly hstart := (h.orderly hstart).congr hevolves.configuration hevolves.quiet
    (by rw [hevolves.running]; exact id)

theorem acts (h : Steady c start r) (hacts : Acts r s) : Steady c start s :=
  h.evolves (Evolves.acts hacts : Evolves (fun _ => True) r s)

/-- A run that differs only in what a steady one may be left with. -/
theorem congr (h : Steady c start r)
    (hconf : s.session.configuration = r.session.configuration)
    (hstates : s.session.status.states = r.session.status.states)
    (hall : s.session.status.all = r.session.status.all)
    (hhistories : s.session.histories = r.session.histories) (hjournal : s.journal = r.journal)
    (hrunning : s.session.running = true → r.session.running = true) : Steady c start s where
  toRegular := h.toRegular.congr hconf hstates hall hhistories
  orderly hstart := (h.orderly hstart).congr hconf (fun hr => by rwa [Run.Quiet, hjournal])
    hrunning

end Steady

namespace Interpreter

variable {m : Interpreter σ} {start : Run σ}

theorem checkLegality_of_legal (m : Interpreter σ) (hw : m.chart.WellFormed) {next : StateSet}
    (hatomic : m.chart.AllAtomic next) (hlegal : m.chart.Legal (m.chart.closure next.members))
    (r : Run σ) : m.checkLegality next r = (none, r) := by
  have hnone : m.chart.violations next = [] := (hw.violations_eq_nil_iff hatomic).2 hlegal
  unfold checkLegality
  rw [hnone]
  exact ite_self _

/-- Carrying out a plan that fits leads to a steady run again. -/
theorem steady_carryOut (hw : m.chart.WellFormed) {plan : Plan} {r : Run σ} {step : Step}
    (hfits : m.chart.Fits r.session.configuration.active plan)
    (hremembers : m.chart.Remembers r.session.histories)
    (hquiet : start.Orderly → r.Quiet) :
    Leaves (Steady m.chart start) (fun _ _ => False) (m.carryOut (m.planned plan step) r) := by
  have hentry : ∀ s ∈ (m.planned plan step).entryList, s < m.chart.nodes.size :=
    fun s hs => (hfits.legal.ordinary (hfits.entries.1 hs).1).1
  have hcontent := m.evolves_runContent hw.parent_lt_size hentry r
  have hmove := hfits.move (congrArg Configuration.active hcontent.configuration)
  obtain ⟨x, hx⟩ := hfits.nonempty
  unfold carryOut moveConfiguration
  rw [show (m.planned plan step).exitList = plan.exitList from rfl,
    show (m.planned plan step).entryList = plan.entryList from rfl, hmove]
  refine ⟨⟨hfits.legal, rfl, Status.all_capture hw hfits.legal _, ?_⟩, fun hstart => ⟨?_, ?_⟩⟩
  · change m.chart.Remembers (m.runContent (m.planned plan step) r).session.histories
    rw [hcontent.histories]
    exact hremembers
  · exact hcontent.quiet (hquiet hstart)
  · exact fun _ => ⟨x, hw.mem_closure_of_mem hx⟩

theorem remembers_recordAll (hw : m.chart.WellFormed) {histories : Histories}
    (hr : m.chart.Remembers histories) {before : Status} {active : StateSet}
    (hl : m.chart.Legal active) (hstates : ∀ x ∈ before.states, x ∈ active)
    (hall : ∀ x ∈ before.all, x ∈ active) (exits : List Nat) :
    m.chart.Remembers
      (exits.foldl (fun histories s => histories.recordExit m.chart s before) histories) := by
  induction exits generalizing histories with
  | nil => exact hr
  | cons s rest ih => exact ih (hr.recordExit hw hl hstates hall s)

/-- A plan that fits is approved; what is reported on the way is no violation. -/
theorem approve_of_fits (hw : m.chart.WellFormed) {active : StateSet} {plan : Plan}
    (hfits : m.chart.Fits active plan) (r : Run σ) :
    ∃ s, m.approve plan r = (none, s) ∧ Acts r s := by
  obtain ⟨s, happrove, hreports⟩ := m.approve_eq plan r
  rw [m.checkLegality_of_legal hw hfits.atomic hfits.legal s] at happrove
  exact ⟨s, happrove, hreports⟩

/-- The plan of what is selected fits. -/
theorem fits_planFor (hw : m.chart.WellFormed) (hc : m.chart.Checked) (hp : m.chart.Plain)
    (hd : m.chart.DefaultsJoined) {r : Run σ} (h : Regular m.chart r) {ts : List Nat}
    (hne : ts ≠ []) (hfire : m.chart.FireTogether r.session.status.states ts) :
    m.chart.Fits r.session.configuration.active (m.planFor ts r) := by
  obtain ⟨t, ht⟩ := List.exists_mem_of_ne_nil ts hne
  obtain ⟨s, hs, -⟩ := hw.mem_closure.1 (hfire.source t ht)
  have hatomic : m.chart.AllAtomic r.session.status.states := by
    rw [h.states]
    exact Configuration.allAtomic h.legal
  have hlegal : m.chart.Legal r.session.status.all := by
    rw [h.all]
    exact h.legal
  rw [← h.all]
  exact Chart.fits_plan hw hc hp.direct (h.remembers.recallsBelow hw hc hp)
    (h.remembers.recallsJoined hw hd) hatomic (h.closure hw) hlegal ⟨s, hs⟩ hfire

/-- A microstep from a steady run does not fail and leads to a steady one. -/
theorem steady_microstep (hw : m.chart.WellFormed) (hc : m.chart.Checked) (hp : m.chart.Plain)
    (hd : m.chart.DefaultsJoined) (event : Option Event) {r : Run σ} (h : Steady m.chart start r) :
    Leaves (Steady m.chart start) (fun _ _ => False) (m.microstep event r) := by
  have hbound : Steady m.chart start (r.mapSession (·.bindEvent event)) :=
    h.congr rfl rfl rfl rfl rfl id
  have hfits : ∀ {ts : List Nat} {s : Run σ}, m.selectFor event r = (ts, s) →
      Steady m.chart start s ∧
      (ts ≠ [] → m.chart.Fits s.session.configuration.active (m.planFor ts s)) := by
    intro ts s hselect
    have hacts := m.acts_selectFor event r
    have hfire := m.fireTogether_select hw (event.map Event.name) r.session.status.states
      (r.mapSession (·.bindEvent event))
    change m.chart.FireTogether r.session.status.states (m.selectFor event r).1 at hfire
    rw [hselect] at hacts hfire
    have hs : Steady m.chart start s := hbound.acts hacts
    refine ⟨hs, fun hne => fits_planFor hw hc hp hd hs.toRegular hne ?_⟩
    rw [hacts.status]
    exact hfire
  have hstep := m.microstep_spec event r
  generalize m.microstep event r = out at hstep ⊢
  cases hstep with
  | idle hselect _ => exact (hfits hselect).1
  | @refused ts s t e hselect hne happrove =>
    obtain ⟨u, happroved, -⟩ := approve_of_fits hw ((hfits hselect).2 hne) s
    rw [happroved] at happrove
    cases happrove
  | @fired ts s t step hselect hne _ happrove =>
    obtain ⟨hs, hplan⟩ := hfits hselect
    obtain ⟨u, happroved, hreports⟩ := approve_of_fits hw (hplan hne) s
    obtain rfl : u = t := by
      rw [happroved] at happrove
      exact congrArg Prod.snd happrove
    have hu : Steady m.chart start u := hs.acts hreports
    have hremembers : m.chart.Remembers
        (m.recordFor (m.planFor ts s) u).session.histories := by
      refine remembers_recordAll hw hu.remembers hu.legal ?_ ?_ _
      · intro x hx
        rw [hu.states] at hx
        exact (StateSet.mem_filter.1 hx).1
      · intro x hx
        rwa [hu.all] at hx
    have hactive : m.chart.Fits (m.recordFor (m.planFor ts s) u).session.configuration.active
        (m.planFor ts s) := by
      change m.chart.Fits u.session.configuration.active (m.planFor ts s)
      rw [hreports.configuration]
      exact hplan hne
    exact steady_carryOut hw hactive hremembers (fun hstart => (hu.orderly hstart).quiet)

theorem regular_reset (m : Interpreter σ) (r : Run σ) : Regular m.chart (m.reset r) := by
  obtain ⟨hconf, hhistories, -⟩ := m.cleared_reset r
  have hstatus : (m.reset r).session.status =
      Status.capture m.chart .empty (m.reset r).session.internal.length :=
    congrArg (fun conf => Status.capture m.chart conf _) hconf
  exact .of_empty hconf hhistories (congrArg Status.states hstatus) (congrArg Status.all hstatus)

theorem quiet_reset {r : Run σ} (hquiet : r.Quiet) : (m.reset r).Quiet := by
  have hcleared : (m.clear r).Quiet := (m.acts_cancelAllInvokes r).quiet hquiet
  exact (m.acts_initializeData (m.clear r)).quiet hcleared

/-- A reset leads to a steady run, from wherever it starts. -/
theorem steady_reset {r : Run σ} (hquiet : start.Orderly → r.Quiet) :
    Steady m.chart start (m.reset r) where
  toRegular := m.regular_reset r
  orderly hstart := by
    refine ⟨quiet_reset (hquiet hstart), ?_⟩
    intro h
    rw [m.running_reset r] at h
    cases h

/-- The start of a chart is entered without failure. -/
theorem steady_initialStep (hw : m.chart.WellFormed) (hc : m.chart.Checked) (hp : m.chart.Plain)
    (hd : m.chart.DefaultsJoined) {r : Run σ} (hconf : r.session.configuration = .empty)
    (hremembers : m.chart.Remembers r.session.histories)
    (hquiet : start.Orderly → r.Quiet) :
    Leaves (Steady m.chart start) (fun _ _ => False) (m.initialStep r) := by
  have hfits := Chart.fits_planStart hw hc hp.direct (hremembers.recallsBelow hw hc hp)
    (hremembers.recallsJoined hw hd)
  obtain ⟨s, happrove, hreports⟩ := approve_of_fits hw hfits r
  have hsome : m.chart.initial.isEmpty = false := by simp [hw.initial_ne_nil]
  have hempty : s.session.configuration.active = ∅ :=
    congrArg Configuration.active (hreports.configuration.trans hconf)
  unfold initialStep
  simp only [hsome, happrove]
  rw [← hempty] at hfits
  refine steady_carryOut hw hfits ?_ (fun hstart => hreports.quiet (hquiet hstart))
  rw [hreports.histories]
  exact hremembers

/-- A session is started without failure, whatever it was before. -/
theorem steady_start (hw : m.chart.WellFormed) (hc : m.chart.Checked) (hp : m.chart.Plain)
    (hd : m.chart.DefaultsJoined) {r : Run σ}
    (hquiet : start.Orderly → r.Quiet) :
    Leaves (Steady m.chart start) (fun _ _ => False)
      (m.initialStep ((m.reset r).mapSession fun session => { session with running := true })) :=
  steady_initialStep hw hc hp hd (m.cleared_reset r).1 (m.regular_reset r).remembers
    (fun hstart => quiet_reset (hquiet hstart))

/-- A steady run stays steady, and no step from one fails. -/
theorem invariant_steady (hw : m.chart.WellFormed) (hc : m.chart.Checked) (hp : m.chart.Plain)
    (hd : m.chart.DefaultsJoined) (start : Run σ) :
    m.Invariant (Steady m.chart start) (fun _ _ => False) where
  evolves h hevolves := h.evolves hevolves
  take _ h := h.congr rfl rfl rfl rfl rfl id
  publishPending h := h.congr rfl rfl rfl rfl rfl id
  halt h := h.congr rfl rfl rfl rfl rfl (fun h => nomatch h)
  fail h := h.elim
  reset h := steady_reset (fun hstart => (h.orderly hstart).quiet)
  start h := steady_start hw hc hp hd (fun hstart => (h.orderly hstart).quiet)
  microstep event h := steady_microstep hw hc hp hd event h

theorem regular_new (m : Interpreter σ) (id : SessionId) (world : σ) :
    Regular m.chart (Run.new id world) :=
  .of_empty rfl rfl rfl rfl

theorem orderly_new (id : SessionId) (world : σ) : (Run.new id world).Orderly := by
  refine ⟨?_, fun h => nomatch h⟩
  intro e he
  cases he

/-- No operation ends in an error, no violation is reported, and after every operation the
configuration is legal, closed upward, published as it is, and not empty while the session
runs. -/
theorem run_safe {o : Outline} (hbuild : o.build = .ok m.chart) (hp : m.chart.Plain)
    (hd : m.chart.DefaultsCompatible) (id : SessionId) (world : σ)
    (operations : List Operation) :
    let r := m.operateAll operations (Run.new id world)
    let conf := r.session.configuration
    (∀ operation, ∃ summaries, (m.operate operation r).1 = .ok summaries) ∧
      (∀ e ∈ r.journal, e.Quiet) ∧
      conf.active = r.session.status.all ∧
      r.session.status.all = m.chart.closure (conf.atomic m.chart).members ∧
      m.chart.Legal conf.active ∧
      (r.session.running = true → ∃ s, s ∈ conf.active) := by
  intro r conf
  obtain ⟨hw, hc⟩ := Outline.wellFormed_of_build hbuild
  have hinvariant := invariant_steady hw hc hp (hd.joined hw) (Run.new id world)
  have hsteady : Steady m.chart (Run.new id world) r :=
    hinvariant.operateAll operations (m.regular_new id world).steady
  obtain ⟨hquiet, hactive⟩ := hsteady.orderly (orderly_new id world)
  refine ⟨?_, hquiet, hsteady.all.symm, ?_, hsteady.legal, hactive⟩
  · intro operation
    have herror := (hinvariant.operate operation hsteady).2
    cases hout : (m.operate operation r).1 with
    | ok summaries => exact ⟨summaries, rfl⟩
    | error e =>
      obtain ⟨_, hfalse⟩ := herror e hout
      exact hfalse.elim
  · rw [hsteady.closure hw, hsteady.states]

theorem run_safe_player :
    ∃ summaries, (player.operate (.trigger (.signal "mute")) playerRun).1 = .ok summaries :=
  (run_safe Outline.build_player Chart.plain_player Chart.defaultsCompatible_player _ _ _).1 _

end Interpreter

end Statechart
