import Statechart.Interpreter.Lifecycle
import Statechart.Proofs.Chart.Build
import Statechart.Proofs.Effects

/-!
Operations from outside, and what holds of a session through all of them. A property that the
small changes keep, and that every microstep keeps, holds after every operation; the loop of a
macrostep is gone through here once for all such properties.
-/

namespace Statechart

/-- What can be asked of a session from outside. -/
inductive Operation where
  | go
  | reset
  | stop
  | trigger (event : Event)

namespace Interpreter

variable {σ : Type} (m : Interpreter σ)

def operate : Operation → Run σ → Outcome × Run σ
  | .go, r => m.go r
  | .reset, r => (.ok [], m.reset r)
  | .stop, r => (.ok [], m.stop r)
  | .trigger event, r => m.trigger event r

/-- Operations one after the other, whatever comes of them. -/
def operateAll (operations : List Operation) (r : Run σ) : Run σ :=
  operations.foldl (fun r operation => (m.operate operation r).2) r

end Interpreter

namespace Interpreter

variable {σ : Type} (m : Interpreter σ)

/-- What is selected for `event`, and the run after it. -/
def selectFor (event : Option Event) (r : Run σ) : List Nat × Run σ :=
  let bound := r.mapSession (·.bindEvent event)
  m.select (m.chart.candidates (event.map Event.name) bound.session.status.states)
    bound.session.status.states bound

/-- The plan of firing `transitions` in the run `r`. -/
def planFor (transitions : List Nat) (r : Run σ) : Plan :=
  m.chart.plan r.session.histories r.session.status transitions

/-- Records the histories of the states that `plan` leaves. -/
def recordFor (plan : Plan) (r : Run σ) : Run σ :=
  r.mapSession fun session =>
    { session with
      histories := plan.exitList.foldl
        (fun histories s => histories.recordExit m.chart s session.status) session.histories }

/-- The ways in which a microstep for `event` can go. -/
inductive Microstep (event : Option Event) (r : Run σ) : Except StepError Step × Run σ → Prop where
  | idle {s : Run σ} {step : Step} (hselect : m.selectFor event r = ([], s))
      (hstep : step.hasFired = false) (hexits : step.exitList = [])
      (hentries : step.entryList = []) : Microstep event r (.ok step, s)
  | refused {ts : List Nat} {s t : Run σ} {e : StepError} (hselect : m.selectFor event r = (ts, s))
      (hne : ts ≠ []) (happrove : m.approve (m.planFor ts s) s = (some e, t)) :
    Microstep event r (.error e, t)
  | fired {ts : List Nat} {s t : Run σ} {step : Step} (hselect : m.selectFor event r = (ts, s))
      (hne : ts ≠ []) (hstep : step.hasFired = true)
      (happrove : m.approve (m.planFor ts s) s = (none, t))
      (htransitions : step.transitions = ts) :
    Microstep event r (m.carryOut (m.planned (m.planFor ts s) step)
      (m.recordFor (m.planFor ts s) t))

theorem acts_selectFor (event : Option Event) (r : Run σ) :
    Acts (r.mapSession (·.bindEvent event)) (m.selectFor event r).2 :=
  (m.performs_select _ _ _ : Performs Unreserved _ _).acts

/-- What approval reports before it checks the plan. -/
theorem approve_eq (plan : Plan) (r : Run σ) :
    ∃ s, m.approve plan r = m.checkLegality plan.next s ∧ Acts r s := by
  refine ⟨_, rfl, .foldl ?_ r⟩
  intro r s _
  exact .report r (by simp) _ _

theorem reports_checkLegality (next : StateSet) (r : Run σ) :
    Reports r (m.checkLegality next r).2 := by
  unfold checkLegality
  split
  · exact .refl r
  · split
    · exact .refl r
    · cases m.config.legality with
      | warn => exact .foldl _ r
      | fatal => exact .foldl _ r

/-- Approval only reports. -/
theorem reports_approve (plan : Plan) (r : Run σ) : Reports r (m.approve plan r).2 :=
  (Reports.foldl plan.expansion.lacking r).trans (m.reports_checkLegality plan.next _)

theorem notes_approve (plan : Plan) (r : Run σ) : Notes r (m.approve plan r).2 :=
  (m.reports_approve plan r).notes

theorem session_approve (plan : Plan) (r : Run σ) :
    (m.approve plan r).2.session = r.session :=
  (m.notes_approve plan r).session

theorem microstep_spec (event : Option Event) (r : Run σ) :
    m.Microstep event r (m.microstep event r) := by
  obtain ⟨ts, s, hselect⟩ : ∃ ts s, m.selectFor event r = (ts, s) := ⟨_, _, rfl⟩
  have hstatus : s.session.status = r.session.status := by
    have h := (m.acts_selectFor event r).status
    rw [hselect] at h
    exact h
  have hplan : m.chart.plan s.session.histories r.session.status ts = m.planFor ts s := by
    rw [planFor, hstatus]
  unfold microstep
  dsimp only
  rw [show m.select (m.chart.candidates (event.map Event.name)
      (r.mapSession (·.bindEvent event)).session.status.states)
      (r.mapSession (·.bindEvent event)).session.status.states
      (r.mapSession (·.bindEvent event)) = (ts, s) from hselect]
  dsimp only
  split
  · next hnone =>
    obtain rfl := List.isEmpty_iff.1 hnone
    exact .idle hselect rfl rfl rfl
  · next hsome =>
    have hne : ts ≠ [] := fun h => hsome (List.isEmpty_iff.2 h)
    rw [show (r.mapSession (·.bindEvent event)).session.status = r.session.status from rfl, hplan]
    split
    · next happrove => exact .refused hselect hne happrove
    · next t happrove =>
      have ht : t.session.status = r.session.status := by
        have h := congrArg Session.status (m.session_approve (m.planFor ts s) s)
        rw [happrove] at h
        exact h.trans hstatus
      rw [← ht]
      refine .fired hselect hne ?_ happrove rfl
      simpa [Step.hasFired] using hsome

/-- What it takes to carry out a step, and what comes of it. -/
theorem carryOut_ok {step step' : Step} {r s : Run σ}
    (h : m.carryOut step r = (.ok step', s)) :
    ∃ conf, (m.runContent step r).session.configuration.move m.chart step.exitList
        step.entryList = (none, conf) ∧
      s = (m.runContent step r).mapSession (fun session =>
        ({ session with configuration := conf } : Session).publish m.chart) ∧
      step' = { step with after := s.session.status } := by
  unfold carryOut moveConfiguration at h
  split at h
  · cases h
  · next conf hmove =>
    obtain ⟨hstep, rfl⟩ := Prod.mk.inj h
    exact ⟨conf, hmove, rfl, (Except.ok.inj hstep).symm⟩

theorem hasFired_carryOut {step step' : Step} {r : Run σ}
    (h : (m.carryOut step r).1 = .ok step') : step'.hasFired = step.hasFired := by
  obtain ⟨conf, -, -, rfl⟩ := m.carryOut_ok (Prod.ext h rfl : m.carryOut step r = (.ok step', _))
  rfl

/-- A round with nothing to do selects nothing without event, and finds no event waiting. -/
theorem round_idle {r s : Run σ} (h : m.round r = .idle s) :
    m.selectFor none r = ([], s) ∧ s.session.internal = [] := by
  have hstep := m.microstep_spec none r
  unfold round at h
  generalize m.microstep none r = out at hstep h
  cases hstep with
  | @idle t step hselect hfired _ _ =>
    simp only [hfired, Bool.false_eq_true, if_false] at h
    split at h
    · next htake =>
      obtain rfl := Round.idle.inj h
      refine ⟨hselect, ?_⟩
      unfold takeInternal at htake
      split at htake
      · assumption
      · cases htake
    · split at h <;> cases h
  | refused _ _ _ => cases h
  | @fired ts t u step _ _ hfired _ _ =>
    split at h
    · cases h
    · next step' _ hout =>
      have hfired' : step'.hasFired = true :=
        (m.hasFired_carryOut (congrArg Prod.fst hout)).trans hfired
      rw [if_pos hfired'] at h
      cases h

/-- How a macrostep goes on after a round, with `budget` microsteps left; `whenIdle` is what is
done when there was nothing to do. -/
def pursue (budget : Nat) (whenIdle : Run σ → Outcome × Run σ) : Round σ → Outcome × Run σ
  | .failed e r => (.error e, r)
  | .moved step r =>
    ((m.settle budget r).1.map (m.summaryOf step ++ ·), (m.settle budget r).2)
  | .idle r => whenIdle r

/-- The services that wait are started, and what they raise is taken. -/
def serve (budget : Nat) (r : Run σ) : Outcome × Run σ :=
  let r := m.startInvokes r
  if r.session.internal.isEmpty then (.ok [], m.settled r)
  else m.pursue budget (fun r => (.ok [], m.settled r)) (m.round r)

theorem settle_succ (budget : Nat) (r : Run σ) :
    m.settle (budget + 1) r = m.pursue budget (m.serve budget) (m.round r) := by
  rw [settle]
  cases m.round r with
  | failed e r => rfl
  | moved step r => rfl
  | idle r => cases hagain : m.round (m.startInvokes r) <;> simp only [pursue, serve, hagain]

/-- An error stops the session. -/
def conclude : Outcome × Run σ → Outcome × Run σ
  | (.error e, r) => (.error e, m.stop r)
  | ok => ok

theorem complete_error (e : StepError) (r : Run σ) :
    m.complete (.error e, r) = m.conclude (.error e, r) := rfl

theorem complete_ok (step : Step) (r : Run σ) :
    m.complete (.ok step, r) =
      m.conclude ((m.settle m.config.maxMicrosteps r).1.map (m.summaryOf step ++ ·),
        (m.settle m.config.maxMicrosteps r).2) := rfl

/-- A macrostep that fails stops the session. -/
theorem running_of_error {first : Except StepError Step × Run σ} {e : StepError}
    (h : (m.complete first).1 = .error e) : (m.complete first).2.session.running = false := by
  have hconclude : ∀ out : Outcome × Run σ, (m.conclude out).1 = .error e →
      (m.conclude out).2.session.running = false := by
    rintro ⟨outcome, r⟩ hout
    cases outcome with
    | error e' => rfl
    | ok summaries => cases hout
  obtain ⟨result, r⟩ := first
  cases result with
  | error e' =>
    rw [complete_error] at h ⊢
    exact hconclude _ h
  | ok step =>
    rw [complete_ok] at h ⊢
    exact hconclude _ h

/-- A session that was reset does not run. -/
theorem running_reset (r : Run σ) : (m.reset r).session.running = false :=
  (m.acts_initializeData _).running

/-- The session is cleared and laid out, and nothing is initialised yet. -/
def clear (r : Run σ) : Run σ :=
  (m.cancelAllInvokes r).mapSession fun session =>
    Session.fresh m.chart m.evaluator.sharesContext session.id

/-- After a reset nothing is active, remembered or marked. -/
theorem cleared_reset (r : Run σ) : (m.reset r).session.configuration = .empty ∧
    (m.reset r).session.histories = ∅ ∧ (m.reset r).session.completed = ∅ := by
  have hdata := m.acts_initializeData (m.clear r)
  exact ⟨hdata.configuration, hdata.histories, hdata.completed⟩

theorem cancelAllInvokes_new {r : Run σ} {id : SessionId} (h : r.session = .new id) :
    m.cancelAllInvokes r = r := by
  rw [cancelAllInvokes, h]
  rfl

/-- From the run `r` on `events` are taken from the queue and triggered, in order, until the session
does not run any more, the queue is empty, or a step fails; `out` is what comes of it. -/
inductive HandsOver : Run σ → List Event → Outcome × Run σ → Prop where
  | stopped {r : Run σ} (hrunning : r.session.running = false) : HandsOver r [] (.ok [], r)
  | empty {r : Run σ} (hrunning : r.session.running = true) (hqueue : r.queue = []) :
    HandsOver r [] (.ok [], r)
  | failed {r s : Run σ} {event : Event} {rest : List Event} {e : StepError}
      (hrunning : r.session.running = true) (hqueue : r.queue = event :: rest)
      (htrigger : m.trigger event { r with queue := rest } = (.error e, s)) :
    HandsOver r [event] (.error e, s)
  | next {r s : Run σ} {event : Event} {rest events : List Event} {summaries : List Summary}
      {out : Outcome × Run σ} (hrunning : r.session.running = true)
      (hqueue : r.queue = event :: rest)
      (htrigger : m.trigger event { r with queue := rest } = (.ok summaries, s))
      (hrest : HandsOver s events out) :
    HandsOver r (event :: events) (out.1.map (summaries ++ ·), out.2)

/-- Draining hands events over, unless there are more of them than rounds. -/
theorem drainQueue_eq_some_iff {rounds : Nat} {r : Run σ} {out : Outcome × Run σ} :
    m.drainQueue rounds r = some out ↔
      ∃ events, m.HandsOver r events out ∧ events.length ≤ rounds := by
  constructor
  · intro h
    fun_induction drainQueue m rounds r generalizing out with
    | case1 rounds r hrunning =>
      obtain rfl := Option.some.inj h
      exact ⟨[], .stopped (by simpa using hrunning), Nat.zero_le _⟩
    | case2 rounds r hrunning hqueue =>
      obtain rfl := Option.some.inj h
      exact ⟨[], .empty (by simpa using hrunning) hqueue, Nat.zero_le _⟩
    | case3 => cases h
    | case4 r hrunning event rest hqueue rounds e s htrigger =>
      obtain rfl := Option.some.inj h
      exact ⟨[event], .failed (by simpa using hrunning) hqueue htrigger,
        Nat.succ_le_succ (Nat.zero_le _)⟩
    | case5 r hrunning event rest hqueue rounds summaries s htrigger ih =>
      obtain ⟨others, hdrain, rfl⟩ := Option.map_eq_some_iff.1 h
      obtain ⟨events, hevents, hlength⟩ := ih hdrain
      exact ⟨event :: events, .next (by simpa using hrunning) hqueue htrigger hevents,
        Nat.succ_le_succ hlength⟩
  · rintro ⟨events, h, hlength⟩
    induction h generalizing rounds with
    | stopped hrunning =>
      unfold drainQueue
      simp [hrunning]
    | empty hrunning hqueue =>
      unfold drainQueue
      simp [hrunning, hqueue]
    | failed hrunning hqueue htrigger =>
      obtain ⟨rounds, rfl⟩ := Nat.exists_eq_succ_of_ne_zero (Nat.ne_of_gt hlength)
      unfold drainQueue
      simp [hrunning, hqueue, htrigger]
    | next hrunning hqueue htrigger _ ih =>
      obtain ⟨rounds, rfl⟩ := Nat.exists_eq_succ_of_ne_zero
        (Nat.ne_of_gt (Nat.lt_of_lt_of_le (Nat.succ_pos _) hlength))
      unfold drainQueue
      simp [hrunning, hqueue, htrigger, ih (Nat.le_of_succ_le_succ hlength)]

end Interpreter

/-- The run satisfies `P`, or `Q` if it ends in an error. -/
def Leaves {σ α : Type} (P : Run σ → Prop) (Q : StepError → Run σ → Prop)
    (out : Except StepError α × Run σ) : Prop :=
  match out.1 with
  | .ok _ => P out.2
  | .error e => Q e out.2

theorem Leaves.map {σ α β : Type} {P : Run σ → Prop} {Q : StepError → Run σ → Prop} (f : α → β)
    {out : Except StepError α × Run σ} (h : Leaves P Q out) :
    Leaves P Q (out.1.map f, out.2) := by
  obtain ⟨outcome, r⟩ := out
  cases outcome with
  | ok x => exact h
  | error e => exact h

/-- What is left whether or not there is an error. -/
theorem leaves_iff {σ α : Type} {P : Run σ → Prop} {out : Except StepError α × Run σ} :
    Leaves P (fun _ => P) out ↔ P out.2 := by
  unfold Leaves
  split <;> rfl

/-- The same of a round. -/
def Interpreter.Round.Leaves {σ : Type} (P : Run σ → Prop) (Q : StepError → Run σ → Prop) :
    Round σ → Prop
  | .moved _ r => P r
  | .idle r => P r
  | .failed e r => Q e r

namespace Interpreter

variable {σ : Type}

/-- What a macrostep leaves once a round of it leaves `P`. -/
theorem leaves_pursue {m : Interpreter σ} {P R : Run σ → Prop} {Q : StepError → Run σ → Prop}
    (budget : Nat) {whenIdle : Run σ → Outcome × Run σ}
    (hgoOn : ∀ {r}, P r → Leaves R Q (m.settle budget r))
    (hidle : ∀ {r}, P r → Leaves R Q (whenIdle r)) {out : Round σ} (hout : out.Leaves P Q) :
    Leaves R Q (m.pursue budget whenIdle out) := by
  cases out with
  | failed e r => exact hout
  | moved step r => exact (hgoOn hout).map (m.summaryOf step ++ ·)
  | idle r => exact hidle hout

/-- What a microstep leaves, once the transitions are selected: approval only reports, and then the
step is carried out. -/
theorem leaves_microstep {m : Interpreter σ} {P : Run σ → Prop} {Q : StepError → Run σ → Prop}
    (event : Option Event) {r : Run σ} (hselected : P (m.selectFor event r).2)
    (hrefused : ∀ {s t e}, P s → Reports s t → Q e t)
    (hfired : ∀ {ts s t step}, m.selectFor event r = (ts, s) → P s → Reports s t →
      Leaves P Q (m.carryOut (m.planned (m.planFor ts s) step) (m.recordFor (m.planFor ts s) t))) :
    Leaves P Q (m.microstep event r) := by
  have hstep := m.microstep_spec event r
  generalize m.microstep event r = out at hstep ⊢
  cases hstep with
  | idle hselect _ _ _ =>
    rw [hselect] at hselected
    exact hselected
  | @refused ts s t e hselect _ happrove =>
    rw [hselect] at hselected
    have hreports := m.reports_approve (m.planFor ts s) s
    rw [happrove] at hreports
    exact hrefused hselected hreports
  | @fired ts s t step hselect _ _ happrove _ =>
    rw [hselect] at hselected
    have hreports := m.reports_approve (m.planFor ts s) s
    rw [happrove] at hreports
    exact hfired hselect hselected hreports

/-- The same of the step that enters the start of a chart. -/
theorem leaves_initialStep {m : Interpreter σ} {P : Run σ → Prop} {Q : StepError → Run σ → Prop}
    {r : Run σ} (hrefused : ∀ {t e}, Reports r t → Q e t)
    (hnowhere : ∀ {t}, Reports r t → Leaves P Q (m.carryOut (Step.start none .empty) t))
    (hplanned : ∀ {t}, Reports r t → Leaves P Q (m.carryOut
      (m.planned (m.chart.planStart r.session.histories) (Step.start none .empty)) t)) :
    Leaves P Q (m.initialStep r) := by
  have hreports := m.reports_approve (m.chart.planStart r.session.histories) r
  unfold initialStep
  dsimp only
  split
  · exact hnowhere ⟨[_], rfl⟩
  · split
    · next happrove =>
      rw [happrove] at hreports
      exact hrefused hreports
    · next happrove =>
      rw [happrove] at hreports
      exact hplanned hreports

/-- `P` holds between the steps of a macrostep and `R` between operations; where a step ends in
an error, `Q` is what is left of it until the session stops. -/
structure Lasts (m : Interpreter σ) (P : Run σ → Prop) (Q : StepError → Run σ → Prop)
    (R : Run σ → Prop) : Prop where
  microstep : ∀ {r} event, P r → Leaves P Q (m.microstep event r)
  take : ∀ {r s e}, P r → takeInternal r = some (e, s) → P s
  startInvokes : ∀ {r}, P r → P (m.startInvokes r)
  settled : ∀ {r}, P r → R (m.settled r)
  exhausted : ∀ {r}, P r → R (m.exhausted r)
  fail : ∀ {e r}, Q e r → R (m.stop r)
  start : ∀ {r}, R r →
    Leaves P Q (m.initialStep ((m.reset r).mapSession fun session =>
      { session with running := true }))
  running : ∀ {r}, R r → r.session.running = true → P r
  reset : ∀ {r}, R r → R (m.reset r)
  stop : ∀ {r}, R r → R (m.stop r)

namespace Lasts

variable {m : Interpreter σ} {P R : Run σ → Prop} {Q : StepError → Run σ → Prop}

/-- What a round leaves if its first microstep leaves `P`. -/
theorem round_of_microstep (h : m.Lasts P Q R) {r : Run σ}
    (hfirst : Leaves P Q (m.microstep none r)) : (m.round r).Leaves P Q := by
  unfold Interpreter.round
  split
  · next hstep =>
    rw [hstep] at hfirst
    exact hfirst
  · next step s hstep =>
    rw [hstep] at hfirst
    split
    · exact hfirst
    · split
      · exact hfirst
      · next e t htake =>
        have hsecond := h.microstep (some e) (h.take hfirst htake)
        split
        · next hstep' =>
          rw [hstep'] at hsecond
          exact hsecond
        · next hstep' =>
          rw [hstep'] at hsecond
          exact hsecond

theorem round (h : m.Lasts P Q R) {r : Run σ} (hr : P r) : (m.round r).Leaves P Q :=
  h.round_of_microstep (h.microstep none hr)

theorem serve (h : m.Lasts P Q R) (budget : Nat)
    (hgoOn : ∀ {r}, P r → Leaves R Q (m.settle budget r)) {r : Run σ} (hr : P r) :
    Leaves R Q (m.serve budget r) := by
  have hstarted : P (m.startInvokes r) := h.startInvokes hr
  unfold Interpreter.serve
  dsimp only
  split
  · exact h.settled hstarted
  · exact leaves_pursue budget hgoOn h.settled (h.round hstarted)

/-- The loop of a macrostep, by induction on the microsteps that are left. -/
theorem settle (h : m.Lasts P Q R) (budget : Nat) {r : Run σ} (hr : P r) :
    Leaves R Q (m.settle budget r) := by
  induction budget generalizing r with
  | zero => exact h.exhausted hr
  | succ budget ih =>
    rw [settle_succ]
    exact leaves_pursue budget ih (h.serve budget ih) (h.round hr)

theorem conclude (h : m.Lasts P Q R) {out : Outcome × Run σ} (hout : Leaves R Q out) :
    R (m.conclude out).2 ∧ ∀ e, (m.conclude out).1 = .error e → ∃ r, Q e r := by
  obtain ⟨result, r⟩ := out
  cases result with
  | error e =>
    refine ⟨h.fail hout, ?_⟩
    rintro e' ⟨⟩
    exact ⟨r, hout⟩
  | ok summaries => exact ⟨hout, fun e he => nomatch he⟩

theorem complete (h : m.Lasts P Q R) {first : Except StepError Step × Run σ}
    (hfirst : Leaves P Q first) :
    R (m.complete first).2 ∧ ∀ e, (m.complete first).1 = .error e → ∃ r, Q e r := by
  obtain ⟨result, r⟩ := first
  cases result with
  | error e =>
    rw [complete_error]
    exact h.conclude hfirst
  | ok step =>
    rw [complete_ok]
    exact h.conclude ((h.settle _ hfirst).map (m.summaryOf step ++ ·))

theorem operate (h : m.Lasts P Q R) (operation : Operation) {r : Run σ} (hr : R r) :
    R (m.operate operation r).2 ∧
      ∀ e, (m.operate operation r).1 = .error e → ∃ r, Q e r := by
  cases operation with
  | go => exact h.complete (h.start hr)
  | reset => exact ⟨h.reset hr, fun e he => nomatch he⟩
  | stop => exact ⟨h.stop hr, fun e he => nomatch he⟩
  | trigger event =>
    simp only [Interpreter.operate, trigger]
    split
    · exact ⟨hr, fun e he => nomatch he⟩
    · next hrunning =>
      split
      · exact ⟨h.stop hr, fun e he => nomatch he⟩
      · exact h.complete (h.microstep (some event) (h.running hr (by simpa using hrunning)))

theorem operateAll (h : m.Lasts P Q R) (operations : List Operation) {r : Run σ} (hr : R r) :
    R (m.operateAll operations r) := by
  induction operations generalizing r with
  | nil => exact hr
  | cons operation rest ih => exact ih (h.operate operation hr).1

end Lasts

/-- `P` holds through all operations; where a step ends in an error, `Q` is what is left of it
until the session stops. -/
structure Invariant (m : Interpreter σ) (P : Run σ → Prop) (Q : StepError → Run σ → Prop) :
    Prop where
  evolves : ∀ {r s}, P r → Evolves (· < m.chart.nodes.size) r s → P s
  take : ∀ {r} events, P r →
    P (r.mapSession fun session => { session with internal := events })
  publishPending : ∀ {r}, P r → P (r.mapSession Session.publishPending)
  halt : ∀ {r}, P r → P (r.mapSession fun session => { session with running := false })
  fail : ∀ {e r}, Q e r → P (m.stop r)
  reset : ∀ {r}, P r → P (m.reset r)
  start : ∀ {r}, P r →
    Leaves P Q (m.initialStep ((m.reset r).mapSession fun session =>
      { session with running := true }))
  microstep : ∀ {r} event, P r → Leaves P Q (m.microstep event r)

namespace Invariant

variable {m : Interpreter σ} {P : Run σ → Prop} {Q : StepError → Run σ → Prop}

theorem acts (h : m.Invariant P Q) {r s : Run σ} (hr : P r) (hacts : Acts r s) : P s :=
  h.evolves hr (.acts hacts)

theorem stop (h : m.Invariant P Q) {r : Run σ} (hr : P r) : P (m.stop r) :=
  h.halt (h.acts hr (m.acts_cancelAllInvokes r))

theorem takeInternal (h : m.Invariant P Q) {r s : Run σ} {e : Event} (hr : P r)
    (htake : Interpreter.takeInternal r = some (e, s)) : P s := by
  unfold Interpreter.takeInternal at htake
  split at htake
  · cases htake
  · next rest _ =>
    obtain ⟨rfl, rfl⟩ := Prod.mk.inj (Option.some.inj htake)
    exact h.acts (h.take rest hr) (.note _ nofun rfl)

theorem settled (h : m.Invariant P Q) {r : Run σ} (hr : P r) : P (m.settled r) := by
  unfold Interpreter.settled
  dsimp only
  split
  · exact h.stop (h.publishPending hr)
  · exact h.publishPending hr

theorem exhausted (h : m.Invariant P Q) {r : Run σ} (hr : P r) : P (m.exhausted r) :=
  h.publishPending (h.stop (h.acts hr (.report r (by simp) _ _)))

/-- What the small changes keep lasts between steps and between operations alike. -/
theorem lasts (h : m.Invariant P Q) : m.Lasts P Q P where
  microstep := h.microstep
  take := h.takeInternal
  startInvokes {r} hr := h.acts hr (m.acts_startInvokes r)
  settled := h.settled
  exhausted := h.exhausted
  fail := h.fail
  start := h.start
  running hr _ := hr
  reset := h.reset
  stop := h.stop

theorem round (h : m.Invariant P Q) {r : Run σ} (hr : P r) : (m.round r).Leaves P Q :=
  h.lasts.round hr

theorem settle (h : m.Invariant P Q) (budget : Nat) {r : Run σ} (hr : P r) :
    Leaves P Q (m.settle budget r) :=
  h.lasts.settle budget hr

theorem operate (h : m.Invariant P Q) (operation : Operation) {r : Run σ} (hr : P r) :
    P (m.operate operation r).2 ∧
      ∀ e, (m.operate operation r).1 = .error e → ∃ r, Q e r :=
  h.lasts.operate operation hr

theorem operateAll (h : m.Invariant P Q) (operations : List Operation) {r : Run σ} (hr : P r) :
    P (m.operateAll operations r) :=
  h.lasts.operateAll operations hr

end Invariant

def player : Interpreter Unit := ⟨Outline.player.chart, .minimal, .silent, .default⟩

/-- The player is turned off while it plays, and on again. -/
def playerRun : Run Unit :=
  player.operateAll
    [.go, .trigger (.signal "play"), .trigger (.signal "power"), .trigger (.signal "power")]
    (Run.new ⟨List.replicate 32 (Fin.last 15), rfl⟩ ())

example : playerRun.session.configuration.active.members = [0, 1, 3, 5, 6] := by decide +kernel

/-- The id of another session. -/
def secondId : SessionId := ⟨List.replicate 32 ⟨2, by omega⟩, rfl⟩

end Interpreter

end Statechart
