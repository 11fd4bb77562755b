import Statechart.Proofs.Settling
import Statechart.Proofs.TargetLists

/-!
Checking only observes. As long as nothing illegal is reported it makes no difference whether
configurations are checked and what the settings say of those that are illegal: the runs are the
same. The first time that something is reported is the time at which the strict settings end the
run.
-/

namespace Statechart

variable {σ : Type}

instance (e : Entry) : Decidable e.Quiet :=
  match e with
  | .report report =>
    decidable_of_iff (report.kind ≠ .illegalConfig)
      ⟨fun h _ heq => by cases heq; exact h, fun h => h report rfl⟩
  | .log .. | .send .. | .cancelSend .. | .startInvoke .. | .cancelInvoke .. | .raised _
  | .taken _ | .guarded _ | .began _ => isTrue nofun

instance (r : Run σ) : Decidable r.Quiet :=
  inferInstanceAs (Decidable (∀ e ∈ r.journal, e.Quiet))

/-- What has been reported stays so. -/
theorem Posts.quiet {r s : Run σ} (h : Posts r s) (hs : s.Quiet) : r.Quiet := by
  obtain ⟨entries, hjournal, -⟩ := h
  intro e he
  apply hs
  rw [hjournal]
  exact List.mem_append_right entries he

namespace Config

/-- Configurations are checked, and one that is illegal is reported and no more. -/
def Warns (config : Config) : Prop :=
  config.legality = .warn ∧ config.checkLegality = true

/-- Configurations are checked, and one that is illegal ends the step. -/
def Strict (config : Config) : Prop :=
  config.legality = .fatal ∧ config.checkLegality = true

end Config

namespace Interpreter

/-- The interpreter with other settings. -/
def under (m : Interpreter σ) (config : Config) : Interpreter σ :=
  { m with config := config }

section Under

variable (m : Interpreter σ) (config : Config)

@[simp] theorem chart_under : (m.under config).chart = m.chart := rfl

mutual

theorem perform_under (owner : Nat) (action : Action) (r : Run σ) :
    (m.under config).perform owner action r = m.perform owner action r := by
  match action with
  | .assign _ _ | .declare _ _ | .log _ _ | .raise _ | .send _ | .cancel _ =>
    simp only [perform] <;> rfl
  | .choose branches otherwise =>
    simp only [perform, performFirst_under owner branches r, performAll_under owner otherwise r]

theorem performAll_under (owner : Nat) (actions : List Action) (r : Run σ) :
    (m.under config).performAll owner actions r = m.performAll owner actions r := by
  match actions with
  | [] => rfl
  | action :: rest =>
    simp only [performAll, perform_under owner action r]
    split
    · exact performAll_under owner rest _
    · rfl

theorem performFirst_under (owner : Nat) (branches : List Branch) (r : Run σ) :
    (m.under config).performFirst owner branches r = m.performFirst owner branches r := by
  match branches with
  | [] => rfl
  | .mk condition actions :: rest =>
    simp only [performFirst, performAll_under owner actions r, performFirst_under owner rest r]
    rfl

end

theorem runBlock_under : (m.under config).runBlock = m.runBlock := by
  funext block owner actions r
  unfold runBlock runActions
  rw [performAll_under]
  rfl

theorem carryOut_under : (m.under config).carryOut = m.carryOut := by
  funext step r
  simp only [carryOut, runContent, leave, fire, enter, runDefaults, runBlock_under]
  rfl

theorem firstEnabled_under (transitions : List Nat) (verdicts : Verdicts) (r : Run σ) :
    (m.under config).firstEnabled transitions verdicts r =
      m.firstEnabled transitions verdicts r := by
  induction transitions generalizing verdicts r with
  | nil => rfl
  | cons t rest ih =>
    simp only [firstEnabled, ih]
    rfl

theorem enabled_under (candidates : List Candidate) (verdicts : Verdicts) (r : Run σ) :
    (m.under config).enabled candidates verdicts r = m.enabled candidates verdicts r := by
  induction candidates generalizing verdicts r with
  | nil => rfl
  | cons candidate rest ih => simp only [enabled, firstEnabled_under, ih]

theorem dropConflicts_under (active : StateSet) (kept : List (Nat × StateSet))
    (transitions : List Nat) (r : Run σ) :
    (m.under config).dropConflicts active kept transitions r =
      m.dropConflicts active kept transitions r := by
  induction transitions generalizing kept r with
  | nil => rfl
  | cons t rest ih =>
    simp only [dropConflicts, ih]
    rfl

theorem select_under : (m.under config).select = m.select := by
  funext candidates active r
  simp only [select, enabled_under, dropConflicts_under]

end Under

section Loud

variable (m : Interpreter σ)

theorem quiet_carryOut (step : Step) {r : Run σ} (hr : r.Quiet) : (m.carryOut step r).2.Quiet := by
  have hcontent : Evolves (fun _ => True) r (m.runContent step r) :=
    m.evolves_runContent (fun _ => trivial) (fun _ _ => trivial) r
  unfold carryOut moveConfiguration
  split
  · exact hcontent.quiet hr
  · exact hcontent.quiet hr

theorem quiet_ready_iff (r : Run σ) : (m.ready r).Quiet ↔ r.Quiet := by
  have hcancel := m.acts_cancelAllInvokes r
  have hdata := m.acts_initializeData (m.clear r)
  constructor
  · intro h
    have hclear : (m.clear r).Quiet := (posts_ready m r).quiet h
    exact hcancel.posts.quiet hclear
  · intro h
    have hclear : (m.clear r).Quiet := hcancel.quiet h
    exact hdata.quiet hclear

theorem quiet_stop {r : Run σ} (hr : r.Quiet) : (m.stop r).Quiet :=
  (m.acts_cancelAllInvokes r).quiet hr

theorem quiet_settled {r : Run σ} (hr : r.Quiet) : (m.settled r).Quiet := by
  unfold settled
  dsimp only
  split
  · exact m.quiet_stop (r := r.mapSession Session.publishPending) hr
  · exact hr

theorem quiet_exhausted {r : Run σ} (hr : r.Quiet) : (m.exhausted r).Quiet :=
  m.quiet_stop ((Acts.report r (by simp) _ _).quiet hr)

theorem invariant_loud : m.Invariant (¬ ·.Quiet) (fun _ r => ¬ r.Quiet) where
  evolves hr h := fun hs => hr (h.posts.quiet hs)
  take _ hr := hr
  publishPending hr := hr
  halt hr := hr
  fail {_ r} hr := fun hs => hr ((m.acts_cancelAllInvokes r).posts.quiet hs)
  reset {r} hr := fun hs => hr ((m.quiet_ready_iff r).1 hs)
  start {r} hr :=
    leaves_iff.2 fun hs => hr ((m.quiet_ready_iff r).1 ((m.posts_initialStep _).quiet hs))
  microstep {r} event hr := leaves_iff.2 fun hs => hr ((m.posts_microstep event r).quiet hs)

end Loud

/-- The step is ended by an illegal configuration. -/
def Refused {α : Type} (out : Except StepError α × Run σ) : Prop :=
  ∃ violations, out.1 = .error (.illegalConfiguration violations)

/-- Of the same step, `a` is what comes of it under settings that only warn. Either nothing
illegal is reported and `b` is the same, or `b` is ended if `strict`. -/
def Watched {α : Type} (strict : Prop) (a b : Except StepError α × Run σ) : Prop :=
  (a.2.Quiet ∧ b = a) ∨ (¬ a.2.Quiet ∧ (strict → Refused b))

/-- The run after a round. -/
def Round.run : Round σ → Run σ
  | .moved _ r => r
  | .idle r => r
  | .failed _ r => r

/-- The same of a round. -/
def Round.Watched (strict : Prop) (a b : Round σ) : Prop :=
  (a.run.Quiet ∧ b = a) ∨
    (¬ a.run.Quiet ∧ (strict → ∃ violations s, b = .failed (.illegalConfiguration violations) s))

theorem Refused.map {α β : Type} {out : Except StepError α × Run σ} (f : α → β) (h : Refused out) :
    Refused (out.1.map f, out.2) := by
  obtain ⟨violations, h⟩ := h
  exact ⟨violations, by simp [h, Except.map]⟩

theorem Watched.map {α β : Type} {strict : Prop} {a b : Except StepError α × Run σ} (f : α → β)
    (h : Watched strict a b) : Watched strict (a.1.map f, a.2) (b.1.map f, b.2) := by
  rcases h with ⟨hquiet, rfl⟩ | ⟨hloud, hrefused⟩
  · exact .inl ⟨hquiet, rfl⟩
  · exact .inr ⟨hloud, fun hstrict => (hrefused hstrict).map f⟩

section Watched

variable {m : Interpreter σ} (config : Config)

/-- Nothing illegal is found, or it is reported in the one run and ends the other. -/
theorem checkLegality_watched (hm : m.config.Warns) (next : StateSet) (r : Run σ) :
    (m.checkLegality next r = (none, r) ∧ (m.under config).checkLegality next r = (none, r)) ∨
      ∃ s, m.checkLegality next r = (none, s) ∧ ¬ s.Quiet ∧ (config.Strict →
        ∃ violations t, (m.under config).checkLegality next r =
          (some (.illegalConfiguration violations), t)) := by
  obtain ⟨hwarn, hcheck⟩ := hm
  cases hviolations : m.chart.violations next with
  | nil =>
    left
    simp [checkLegality, hcheck, hviolations]
  | cons v rest =>
    right
    let reported := rest.foldl (fun r v => r.note (.report v.report)) (r.note (.report v.report))
    refine ⟨reported, ?_, ?_, ?_⟩
    · simp [checkLegality, hcheck, hwarn, hviolations, reported]
    · intro hquiet
      have hfirst : (r.note (.report v.report)).Quiet :=
        (Reports.foldl rest _).notes.posts.quiet hquiet
      exact hfirst (.report v.report) (by simp [Run.note]) v.report rfl rfl
    · rintro ⟨hfatal, hcheck'⟩
      refine ⟨v :: rest, reported, ?_⟩
      simp [checkLegality, under, hcheck', hfatal, hviolations, reported]

theorem approve_watched (hm : m.config.Warns) (plan : Plan) {r : Run σ} (hr : r.Quiet) :
    (∃ s, s.Quiet ∧ m.approve plan r = (none, s) ∧ (m.under config).approve plan r = (none, s)) ∨
      ∃ s, m.approve plan r = (none, s) ∧ ¬ s.Quiet ∧ (config.Strict →
        ∃ violations t, (m.under config).approve plan r =
          (some (.illegalConfiguration violations), t)) := by
  have hreported : Acts r (plan.expansion.lacking.foldl (fun r s =>
      r.report .noInitial "compound state has no initial transition" (some (m.chart.idOf s))) r) :=
    .foldl (fun r s _ => .report r (by simp) _ _) r
  rcases checkLegality_watched config hm plan.next (plan.expansion.lacking.foldl
    (fun r s =>
      r.report .noInitial "compound state has no initial transition" (some (m.chart.idOf s))) r)
    with ⟨hnone, hnone'⟩ | hviolated
  · exact .inl ⟨_, hreported.quiet hr, hnone, hnone'⟩
  · exact .inr hviolated

/-- A step that is approved and then carried out by `goOn`. -/
theorem Watched.approved (hm : m.config.Warns) (plan : Plan) {r : Run σ} (hr : r.Quiet)
    (goOn : Run σ → Except StepError Step × Run σ)
    (hquiet : ∀ {s}, s.Quiet → (goOn s).2.Quiet) (hposts : ∀ s, Posts s (goOn s).2) :
    Watched config.Strict
      (match m.approve plan r with
        | (some e, s) => (.error e, s)
        | (none, s) => goOn s)
      (match (m.under config).approve plan r with
        | (some e, s) => (.error e, s)
        | (none, s) => goOn s) := by
  rcases approve_watched config hm plan hr with
    ⟨s, hs, hnone, hnone'⟩ | ⟨s, hnone, hs, hended⟩
  · rw [hnone, hnone']
    exact .inl ⟨hquiet hs, rfl⟩
  · rw [hnone]
    refine .inr ⟨fun h => hs ((hposts s).quiet h), fun hstrict => ?_⟩
    obtain ⟨violations, t, hended⟩ := hended hstrict
    rw [hended]
    exact ⟨violations, rfl⟩

theorem watched_initialStep (hm : m.config.Warns) {r : Run σ} (hr : r.Quiet) :
    Watched config.Strict (m.initialStep r) ((m.under config).initialStep r) := by
  unfold initialStep
  simp only [chart_under, carryOut_under]
  split
  · exact .inl ⟨m.quiet_carryOut _ ((Acts.report r (by simp) _ _).quiet hr), rfl⟩
  · exact Watched.approved config hm _ hr _ (fun hs => m.quiet_carryOut _ hs)
      (fun s => m.posts_carryOut _ s)

theorem watched_microstep (hm : m.config.Warns) (event : Option Event) {r : Run σ}
    (hr : r.Quiet) : Watched config.Strict (m.microstep event r)
      ((m.under config).microstep event r) := by
  have hselected : (m.selectFor event r).2.Quiet :=
    (m.acts_selectFor event r).quiet (r := r.mapSession (·.bindEvent event)) hr
  unfold selectFor at hselected
  dsimp only at hselected
  unfold microstep
  simp only [chart_under, carryOut_under, select_under]
  split
  · exact .inl ⟨hselected, rfl⟩
  · refine Watched.approved config hm _ hselected (fun s => m.carryOut _ (s.mapSession _)) ?_ ?_
    · intro s hs
      exact m.quiet_carryOut _ hs
    · intro s
      refine Posts.trans ?_ (m.posts_carryOut _ _)
      exact .of_eq rfl rfl

/-- Internal events are taken without a report. -/
theorem quiet_takeInternal {r s : Run σ} {e : Event} (h : takeInternal r = some (e, s)) :
    r.Quiet ↔ s.Quiet := by
  unfold takeInternal at h
  split at h
  · cases h
  · obtain ⟨rfl, rfl⟩ := Prod.mk.inj (Option.some.inj h)
    constructor
    · exact fun hr => Run.quiet_note nofun hr
    · exact fun hs e he => hs e (List.mem_cons_of_mem _ he)

/-- A round that ends with the given microstep. -/
def Round.ofLast : Except StepError Step × Run σ → Round σ
  | (.error e, r) => .failed e r
  | (.ok step, r) => .moved step r

theorem Watched.round {strict : Prop} {a b : Except StepError Step × Run σ}
    (h : Watched strict a b) : Round.Watched strict (.ofLast a) (.ofLast b) := by
  obtain ⟨result, r⟩ := a
  obtain ⟨result', s⟩ := b
  rcases h with ⟨hquiet, heq⟩ | ⟨hloud, hended⟩
  · rw [heq]
    cases result <;> exact .inl ⟨hquiet, rfl⟩
  · refine .inr ⟨?_, fun hstrict => ?_⟩
    · cases result <;> exact hloud
    · obtain ⟨violations, rfl : result' = _⟩ := hended hstrict
      exact ⟨violations, s, rfl⟩

theorem watched_round (hm : m.config.Warns) {r : Run σ} (hr : r.Quiet) :
    Round.Watched config.Strict (m.round r) ((m.under config).round r) := by
  rcases watched_microstep config hm none hr with ⟨hquiet, hsame⟩ | ⟨hloud, hended⟩
  · unfold round
    rw [hsame]
    obtain ⟨result, s, hs⟩ : ∃ result s, m.microstep none r = (result, s) := ⟨_, _, rfl⟩
    rw [hs] at hquiet ⊢
    cases result with
    | error e => exact .inl ⟨hquiet, rfl⟩
    | ok step =>
      dsimp only
      split
      · exact .inl ⟨hquiet, rfl⟩
      · split
        · exact .inl ⟨hquiet, rfl⟩
        · next e t htake =>
          exact (watched_microstep config hm (some e) ((quiet_takeInternal htake).1 hquiet)).round
  · refine .inr ⟨?_, fun hstrict => ?_⟩
    · have hround : (m.round r).Leaves (¬ ·.Quiet) (fun _ s => ¬ s.Quiet) :=
        m.invariant_loud.lasts.round_of_microstep (leaves_iff.2 hloud)
      generalize m.round r = out at hround ⊢
      cases out <;> exact hround
    · obtain ⟨violations, hended⟩ := hended hstrict
      refine ⟨violations, ((m.under config).microstep none r).2, ?_⟩
      unfold Interpreter.round
      rw [show (m.under config).microstep none r = (_, _) from Prod.ext hended rfl]

/-- How a macrostep goes on after a round. -/
theorem watched_pursue (budget : Nat) {whenIdle : Run σ → Outcome × Run σ}
    (hgoOn : ∀ {r : Run σ}, r.Quiet →
      Watched config.Strict (m.settle budget r) ((m.under config).settle budget r))
    {whenIdle' : Run σ → Outcome × Run σ}
    (hidle : ∀ {r : Run σ}, r.Quiet → Watched config.Strict (whenIdle r) (whenIdle' r))
    (hloud : ∀ {r : Run σ}, ¬ r.Quiet → ¬ (whenIdle r).2.Quiet) {a b : Round σ}
    (h : Round.Watched config.Strict a b) :
    Watched config.Strict (m.pursue budget whenIdle a)
      ((m.under config).pursue budget whenIdle' b) := by
  have hloop := m.invariant_loud.lasts
  rcases h with ⟨hquiet, rfl⟩ | ⟨hbroken, hended⟩
  · cases b with
    | failed e r => exact .inl ⟨hquiet, rfl⟩
    | moved step r => exact (hgoOn hquiet).map (m.summaryOf step ++ ·)
    | idle r => exact hidle hquiet
  · refine .inr ⟨?_, fun hstrict => ?_⟩
    · have hleaves : a.Leaves (¬ ·.Quiet) (fun _ r => ¬ r.Quiet) := by
        cases a <;> exact hbroken
      exact leaves_iff.1 (leaves_pursue budget (hloop.settle budget)
        (fun hr => leaves_iff.2 (hloud hr)) hleaves)
    · obtain ⟨violations, r, rfl⟩ := hended hstrict
      exact ⟨violations, rfl⟩

theorem watched_serve (hm : m.config.Warns) (budget : Nat)
    (hgoOn : ∀ {r : Run σ}, r.Quiet →
      Watched config.Strict (m.settle budget r) ((m.under config).settle budget r))
    {r : Run σ} (hr : r.Quiet) :
    Watched config.Strict (m.serve budget r) ((m.under config).serve budget r) := by
  have hstarted : (m.startInvokes r).Quiet := (m.acts_startInvokes r).quiet hr
  unfold serve
  dsimp only
  rw [show (m.under config).startInvokes r = m.startInvokes r from rfl]
  split
  · exact .inl ⟨m.quiet_settled hstarted, rfl⟩
  · refine watched_pursue config budget hgoOn (fun hr => .inl ⟨m.quiet_settled hr, rfl⟩) ?_
      (watched_round config hm hstarted)
    exact fun hr => m.invariant_loud.settled hr

/-- The loop of a macrostep, by induction on the microsteps that are left. -/
theorem watched_settle (hm : m.config.Warns)
    (hceiling : config.maxMicrosteps = m.config.maxMicrosteps) (budget : Nat) {r : Run σ}
    (hr : r.Quiet) :
    Watched config.Strict (m.settle budget r) ((m.under config).settle budget r) := by
  have hloop := m.invariant_loud.lasts
  induction budget generalizing r with
  | zero =>
    refine .inl ⟨m.quiet_exhausted hr, ?_⟩
    change (Except.ok [], (m.under config).exhausted r) = (Except.ok [], m.exhausted r)
    unfold exhausted
    rw [show (m.under config).config.maxMicrosteps = m.config.maxMicrosteps from hceiling]
    rfl
  | succ budget ih =>
    rw [settle_succ, settle_succ]
    refine watched_pursue config budget ih (watched_serve config hm budget ih) ?_
      (watched_round config hm hr)
    exact fun hr => leaves_iff.1 (hloop.serve budget (hloop.settle budget) hr)

theorem watched_conclude {a b : Outcome × Run σ} (h : Watched config.Strict a b) :
    Watched config.Strict (m.conclude a) ((m.under config).conclude b) := by
  have hloop := m.invariant_loud.lasts
  rcases h with ⟨hquiet, rfl⟩ | ⟨hbroken, hended⟩
  · obtain ⟨result, r⟩ := b
    cases result with
    | error e => exact .inl ⟨m.quiet_stop hquiet, rfl⟩
    | ok summaries => exact .inl ⟨hquiet, rfl⟩
  · refine .inr ⟨(hloop.conclude (leaves_iff.2 hbroken)).1, fun hstrict => ?_⟩
    obtain ⟨violations, hended⟩ := hended hstrict
    rw [show b = (_, b.2) from Prod.ext hended rfl]
    exact ⟨violations, rfl⟩

theorem watched_complete (hm : m.config.Warns)
    (hceiling : config.maxMicrosteps = m.config.maxMicrosteps)
    {a b : Except StepError Step × Run σ} (h : Watched config.Strict a b) :
    Watched config.Strict (m.complete a) ((m.under config).complete b) := by
  have hloop := m.invariant_loud.lasts
  rcases h with ⟨hquiet, rfl⟩ | ⟨hbroken, hended⟩
  · obtain ⟨result, r⟩ := b
    cases result with
    | error e => exact .inl ⟨m.quiet_stop hquiet, rfl⟩
    | ok step =>
      rw [complete_ok, complete_ok,
        show (m.under config).config.maxMicrosteps = m.config.maxMicrosteps from hceiling]
      apply watched_conclude
      exact (watched_settle config hm hceiling m.config.maxMicrosteps hquiet).map
        (m.summaryOf step ++ ·)
  · refine .inr ⟨(hloop.complete (leaves_iff.2 hbroken)).1, fun hstrict => ?_⟩
    obtain ⟨violations, hended⟩ := hended hstrict
    rw [show b = (_, b.2) from Prod.ext hended rfl]
    exact ⟨violations, rfl⟩

theorem watched_operate (hm : m.config.Warns)
    (hceiling : config.maxMicrosteps = m.config.maxMicrosteps) (operation : Operation) {r : Run σ}
    (hr : r.Quiet) :
    Watched config.Strict (m.operate operation r) ((m.under config).operate operation r) := by
  cases operation with
  | go =>
    have hready : (m.ready r).Quiet := (m.quiet_ready_iff r).2 hr
    exact watched_complete config hm hceiling (watched_initialStep config hm hready)
  | reset => exact .inl ⟨(m.quiet_ready_iff r).2 hr, rfl⟩
  | stop => exact .inl ⟨m.quiet_stop hr, rfl⟩
  | trigger event =>
    simp only [operate, trigger]
    split
    · exact .inl ⟨hr, rfl⟩
    · split
      · exact .inl ⟨m.quiet_stop hr, rfl⟩
      · exact watched_complete config hm hceiling (watched_microstep config hm (some event) hr)

end Watched

/-- What comes of operations one after the other, and the run after each. -/
def trace (m : Interpreter σ) : List Operation → Run σ → List (Outcome × Run σ)
  | [], _ => []
  | operation :: rest, r =>
    m.operate operation r :: trace m rest (m.operate operation r).2

/-- As long as nothing illegal is reported the traces are the same. -/
theorem trace_of_quiet {m : Interpreter σ} (config : Config) (hm : m.config.Warns)
    (hceiling : config.maxMicrosteps = m.config.maxMicrosteps) {operations : List Operation}
    {r : Run σ} (hr : (m.operateAll operations r).Quiet) :
    (m.under config).trace operations r = m.trace operations r ∧
      (m.under config).operateAll operations r = m.operateAll operations r := by
  have hbefore : ∀ (rest : List Operation) {s : Run σ}, (m.operateAll rest s).Quiet → s.Quiet := by
    intro rest s hs
    by_contra hloud
    exact m.invariant_loud.operateAll rest hloud hs
  induction operations generalizing r with
  | nil => exact ⟨rfl, rfl⟩
  | cons operation rest ih =>
    have hfirst : (m.operate operation r).2.Quiet := hbefore rest hr
    rcases watched_operate config hm hceiling operation (hbefore (operation :: rest) hr) with
      ⟨-, hsame⟩ | ⟨hloud, -⟩
    · obtain ⟨htrace, hall⟩ := ih hr
      refine ⟨?_, ?_⟩
      · rw [trace, trace, hsame, htrace]
      · change (m.under config).operateAll rest ((m.under config).operate operation r).2 = _
        rw [hsame, hall]
        rfl
    · exact absurd hfirst hloud

theorem exists_of_mem_trace {m : Interpreter σ} {operations : List Operation} {r : Run σ}
    {out : Outcome × Run σ} (h : out ∈ m.trace operations r) :
    ∃ operation s, out = m.operate operation s := by
  induction operations generalizing r with
  | nil => cases h
  | cons operation rest ih =>
    rcases List.mem_cons.1 h with rfl | h
    · exact ⟨operation, r, rfl⟩
    · exact ih h

section Lenient

variable {m : Interpreter σ} (hm : m.config.Warns)

include hm

theorem approve_of_warns (plan : Plan) (r : Run σ) : (m.approve plan r).1 = none := by
  obtain ⟨s, happrove, -⟩ := m.approve_eq plan r
  rw [happrove]
  rcases checkLegality_watched m.config hm plan.next s with ⟨hnone, -⟩ | ⟨t, hnone, -⟩
  · rw [hnone]
  · rw [hnone]

omit hm in
theorem lenient_carryOut (step : Step) (r : Run σ) :
    Leaves (fun _ => True) (fun e _ => ∀ violations, e ≠ .illegalConfiguration violations)
      (m.carryOut step r) := by
  unfold carryOut moveConfiguration
  split
  · exact nofun
  · trivial

/-- Where illegal configurations are only reported none of them ends a step. -/
theorem invariant_lenient :
    m.Invariant (fun _ => True)
      (fun e _ => ∀ violations, e ≠ .illegalConfiguration violations) where
  evolves _ _ := trivial
  take _ _ := trivial
  publishPending _ := trivial
  halt _ := trivial
  fail _ := trivial
  reset _ := trivial
  start {r} _ := by
    unfold initialStep
    dsimp only
    split
    · exact lenient_carryOut _ _
    · split
      · next happrove =>
        have hnone := approve_of_warns hm (m.chart.planStart (m.ready r).session.histories)
          (m.ready r)
        cases hnone.symm.trans (congrArg Prod.fst happrove)
      · exact lenient_carryOut _ _
  microstep {r} event _ := by
    have hstep := m.microstep_spec event r
    generalize m.microstep event r = out at hstep ⊢
    cases hstep with
    | idle _ _ _ _ => trivial
    | @refused ts s t e _ _ happrove =>
      have hnone := approve_of_warns hm (m.planFor ts s) s
      cases hnone.symm.trans (congrArg Prod.fst happrove)
    | fired _ _ _ _ _ => exact lenient_carryOut _ _

theorem not_refused_operate (operation : Operation) (r : Run σ) :
    ¬ Refused (m.operate operation r) := by
  rintro ⟨violations, hrefused⟩
  obtain ⟨_, hlenient⟩ := ((invariant_lenient hm).operate operation trivial).2 _ hrefused
  exact hlenient violations rfl

end Lenient

/-- Configurations are checked. -/
def checking (m : Interpreter σ) (legality : LegalityPolicy) : Interpreter σ :=
  m.under { m.config with legality := legality, checkLegality := true }

/-- Configurations are not checked. -/
def unchecked (m : Interpreter σ) : Interpreter σ :=
  m.under { m.config with checkLegality := false }

/-- Checking only observes. Operations in which illegal configurations would be reported, but are
not, come to the same and leave the same runs whether they are only reported, end the step or are
not looked for: session, host, queue and journal. No step is ended by one, and the next operation
is ended by one exactly if it would have reported one. -/
theorem checking_observes (m : Interpreter σ) (id : SessionId) (world : σ)
    (operations : List Operation)
    (hquiet : ((m.checking .warn).operateAll operations (Run.new id world)).Quiet) :
    let begun := Run.new id world
    (m.checking .fatal).trace operations begun = (m.checking .warn).trace operations begun ∧
      m.unchecked.trace operations begun = (m.checking .warn).trace operations begun ∧
      (∀ out ∈ (m.checking .fatal).trace operations begun, ¬ Refused out) ∧
      ∀ operation,
        Refused ((m.checking .fatal).operate operation
            ((m.checking .fatal).operateAll operations begun)) ↔
          ¬ ((m.checking .warn).operateAll (operations ++ [operation]) begun).Quiet := by
  intro begun
  have hm : (m.checking .warn).config.Warns := ⟨rfl, rfl⟩
  obtain ⟨hstrict, hsame⟩ := trace_of_quiet (m.checking .fatal).config hm rfl hquiet
  obtain ⟨hunchecked, -⟩ := trace_of_quiet m.unchecked.config hm rfl hquiet
  have hall : (m.checking .fatal).operateAll operations begun =
      (m.checking .warn).operateAll operations begun := hsame
  have htrace : (m.checking .fatal).trace operations begun =
      (m.checking .warn).trace operations begun := hstrict
  refine ⟨htrace, hunchecked, ?_, ?_⟩
  · intro out hout
    rw [htrace] at hout
    obtain ⟨operation, r, rfl⟩ := exists_of_mem_trace hout
    exact not_refused_operate hm operation r
  · intro operation
    rw [hall, show (m.checking .warn).operateAll (operations ++ [operation]) begun =
      ((m.checking .warn).operate operation
        ((m.checking .warn).operateAll operations begun)).2 by simp [operateAll]]
    rcases watched_operate (m.checking .fatal).config hm rfl operation hquiet with
      ⟨hquiet', hsame⟩ | ⟨hloud, hended⟩
    · have hout : (m.checking .fatal).operate operation
          ((m.checking .warn).operateAll operations begun) = _ := hsame
      rw [hout]
      exact ⟨fun h => absurd h (not_refused_operate hm operation _), fun h => absurd hquiet' h⟩
    · exact ⟨fun _ => hloud, fun _ => hended ⟨rfl, rfl⟩⟩

/-- Takes the outline whose history goes to both states of a compound state. -/
def tearing : Interpreter Unit :=
  ⟨Outline.torn.chart, .minimal, .silent, .default⟩

/-- The start is legal, and the history is not: the same step is reported or ended. -/
theorem checking_observes_tearing :
    let begun := Run.new secondId ()
    (tearing.checking .fatal).trace [.go] begun = (tearing.checking .warn).trace [.go] begun ∧
      tearing.unchecked.trace [.go] begun = (tearing.checking .warn).trace [.go] begun ∧
      Refused ((tearing.checking .fatal).operate (.trigger (.signal "go"))
        ((tearing.checking .fatal).operateAll [.go] begun)) := by
  intro begun
  obtain ⟨hstrict, hunchecked, -, hnext⟩ :=
    checking_observes tearing secondId () [.go] (by decide +kernel)
  exact ⟨hstrict, hunchecked, (hnext _).2 (by decide +kernel)⟩

end Interpreter

end Statechart
