import Statechart.Proofs.Courses
import Statechart.Proofs.Safety

/-!
What a move does to a session. Whatever it is made for, a move comes down to a plan that is
carried out: the configuration changes as the plan says, histories are recorded for the states
that are left, and the content of the step runs in between. Or nothing fires, and all of this
stays as it is.
-/

namespace Statechart.Interpreter

variable {σ : Type} (m : Interpreter σ)

/-- The parts of a session on which a plan and what comes of it depend. -/
structure SameState (r s : Run σ) : Prop where
  configuration : s.session.configuration = r.session.configuration
  status : s.session.status = r.session.status
  histories : s.session.histories = r.session.histories
  marks : SameMarks r s

/-- The move carries out `plan`. -/
structure Carries (move : Move σ) (plan : Plan) : Prop where
  exits : move.step.exitList = plan.exitList
  entries : move.step.entryList = plan.entryList
  approved : m.config.checkLegality = true → m.config.legality = .fatal →
    m.chart.violations plan.next = []
  configuration : move.before.session.configuration.move m.chart plan.exitList plan.entryList =
    (none, move.after.session.configuration)
  status : move.after.session.status =
    Status.capture m.chart move.after.session.configuration move.after.session.internal.length
  histories : move.after.session.histories = plan.exitList.foldl
    (fun histories s => histories.recordExit m.chart s move.before.session.status)
    move.before.session.histories
  content : ∃ r, SameMarks move.before r ∧ SameMarks (m.runContent move.step r) move.after

/-- The ways in which a move can go. -/
inductive Goes (move : Move σ) : Prop where
  | idle (htransitions : move.step.transitions = []) (hexits : move.step.exitList = [])
      (hentries : move.step.entryList = []) (hsame : SameState move.before move.after) :
    Goes move
  | fired (hcause : move.cause ≠ .start) (hne : move.step.transitions ≠ [])
      (htogether : m.chart.FireTogether move.before.session.status.states move.step.transitions)
      (hcarries : m.Carries move (m.chart.plan move.before.session.histories
        move.before.session.status move.step.transitions)) : Goes move
  | entered {r : Run σ} (hbefore : move.before = m.ready r)
      (htransitions : move.step.transitions = [])
      (hcarries : m.Carries move (m.chart.planStart move.before.session.histories)) : Goes move

variable {m}

namespace SameState

theorem refl (r : Run σ) : SameState r r :=
  ⟨rfl, rfl, rfl, .refl r⟩

theorem trans {r s t : Run σ} (hrs : SameState r s) (hst : SameState s t) : SameState r t :=
  ⟨hst.configuration.trans hrs.configuration, hst.status.trans hrs.status,
    hst.histories.trans hrs.histories, hrs.marks.trans hst.marks⟩

theorem of_acts {r s : Run σ} (h : Acts r s) : SameState r s :=
  ⟨h.configuration, h.status, h.histories, h.sameMarks⟩

theorem of_notes {r s : Run σ} (h : Notes r s) : SameState r s := by
  refine ⟨?_, ?_, ?_, h.sameMarks⟩ <;> rw [h.session]

theorem bindEvent (r : Run σ) (event : Option Event) :
    SameState r (r.mapSession (·.bindEvent event)) :=
  ⟨rfl, rfl, rfl, .of_eq rfl rfl⟩

theorem takeInternal {r s : Run σ} {e : Event} (h : Interpreter.takeInternal r = some (e, s)) :
    SameState r s := by
  unfold Interpreter.takeInternal at h
  split at h
  · cases h
  · obtain ⟨rfl, rfl⟩ := Prod.mk.inj (Option.some.inj h)
    exact ⟨rfl, rfl, rfl, SameMarks.note _ rfl⟩

end SameState

/-- A plan that is approved under the strict policy breaks no rule. -/
theorem violations_of_approve {plan : Plan} {r s : Run σ} (h : m.approve plan r = (none, s))
    (hcheck : m.config.checkLegality = true) (hfatal : m.config.legality = .fatal) :
    m.chart.violations plan.next = [] := by
  obtain ⟨t, happrove, -⟩ := m.approve_eq plan r
  rw [happrove] at h
  unfold checkLegality at h
  simp only [hcheck, hfatal, Bool.not_true, Bool.false_eq_true, if_false] at h
  split at h
  · assumption
  · cases h

/-- A plan that is carried out from a run that differs from the one before the move in nothing
that matters. -/
theorem carries_of_carryOut {move : Move σ} {plan : Plan} {step : Step} {r : Run σ}
    (h : m.carryOut (m.planned plan step) r = (.ok move.step, move.after))
    (happroved : m.config.checkLegality = true → m.config.legality = .fatal →
      m.chart.violations plan.next = [])
    (hconf : r.session.configuration = move.before.session.configuration)
    (hhistories : r.session.histories = plan.exitList.foldl
      (fun histories s => histories.recordExit m.chart s move.before.session.status)
      move.before.session.histories)
    (hmarks : SameMarks move.before r) : m.Carries move plan := by
  obtain ⟨conf, hmove, hafter, hstep⟩ := m.carryOut_ok h
  have hcontent : Evolves (fun _ => True) r (m.runContent (m.planned plan step) r) :=
    m.evolves_runContent (fun _ => trivial) (fun _ _ => trivial) r
  have hrun : m.runContent move.step r = m.runContent (m.planned plan step) r := by
    rw [hstep]
    rfl
  rw [hcontent.configuration, hconf] at hmove
  refine ⟨by rw [hstep]; rfl, by rw [hstep]; rfl, happroved, ?_, ?_, ?_, r, hmarks, ?_⟩
  · rw [hafter]
    exact hmove
  · rw [hafter]
    rfl
  · rw [hafter, ← hhistories]
    exact hcontent.histories
  · rw [hrun, hafter]
    exact .of_eq rfl rfl

theorem goes_of_microstep (hw : m.chart.WellFormed) {move : Move σ}
    (hcause : move.cause ≠ .start) {event : Option Event} {r : Run σ}
    (hsame : SameState move.before r)
    (h : m.microstep event r = (.ok move.step, move.after)) : m.Goes move := by
  have hselected : SameState move.before (m.selectFor event r).2 :=
    (hsame.trans (.bindEvent r event)).trans (.of_acts (m.acts_selectFor event r))
  have hfire := m.fireTogether_select hw (event.map Event.name) r.session.status.states
    (r.mapSession (·.bindEvent event))
  change m.chart.FireTogether r.session.status.states (m.selectFor event r).1 at hfire
  have hstep := m.microstep_spec event r
  rw [h] at hstep
  generalize hout : (Except.ok move.step, move.after) = out at hstep
  cases hstep with
  | @idle s step hselect hfired hexits hentries =>
    obtain ⟨hstep, rfl⟩ := Prod.mk.inj hout
    obtain rfl := Except.ok.inj hstep
    rw [hselect] at hselected
    exact .idle (by simpa [Step.hasFired] using hfired) hexits hentries hselected
  | refused => cases hout
  | @fired ts s t step hselect hne hfired happrove htransitions =>
    rw [hselect] at hselected hfire
    have happroved : SameState move.before t := by
      have hnotes := m.notes_approve (m.planFor ts s) s
      rw [happrove] at hnotes
      exact hselected.trans (.of_notes hnotes)
    have hplan : m.planFor ts s = m.chart.plan move.before.session.histories
        move.before.session.status ts := by
      rw [planFor, hselected.histories, hselected.status]
    rw [hplan] at hout happrove
    obtain ⟨-, -, -, hstep⟩ := m.carryOut_ok hout.symm
    have hmoved : move.step.transitions = ts := by
      rw [hstep]
      exact htransitions
    have hcarries := carries_of_carryOut hout.symm (violations_of_approve happrove)
      happroved.configuration
      (by
        change List.foldl _ t.session.histories _ = _
        rw [happroved.histories, happroved.status])
      (happroved.marks.trans (.of_eq rfl rfl))
    rw [hsame.status] at hfire
    rw [← hmoved] at hne hfire hcarries
    exact .fired hcause hne hfire hcarries

/-- Every move goes in one of the three ways. -/
theorem Makes.goes (hw : m.chart.WellFormed) {move : Move σ} (h : m.Makes move) :
    m.Goes move := by
  unfold Makes at h
  split at h
  · obtain ⟨⟨r, hready⟩, hstep⟩ := h
    have hinitial : m.chart.initial.isEmpty = false := by simp [hw.initial_ne_nil]
    unfold initialStep at hstep
    simp only [hinitial, Bool.false_eq_true, if_false] at hstep
    split at hstep
    · cases hstep
    · next s happrove =>
      have hnotes := m.notes_approve (m.chart.planStart move.before.session.histories) move.before
      rw [happrove] at hnotes
      have happroved : SameState move.before s := .of_notes hnotes
      obtain ⟨-, -, -, hafter⟩ := m.carryOut_ok hstep
      refine .entered hready (by rw [hafter]; rfl) ?_
      exact carries_of_carryOut hstep (violations_of_approve happrove) happroved.configuration
        happroved.histories happroved.marks
  · next hcause => exact goes_of_microstep hw (by simp [hcause]) (.refl _) h
  · next hcause =>
    obtain ⟨r, htake, h⟩ := h
    exact goes_of_microstep hw (by simp [hcause]) (.takeInternal htake) h
  · next hcause => exact goes_of_microstep hw (by simp [hcause]) (.refl _) h

/-- A move in which a transition fires does not enter the start. -/
theorem Goes.cause_of_fired {move : Move σ} (h : m.Goes move) {t : Nat}
    (ht : t ∈ move.step.transitions) : move.cause ≠ .start := by
  cases h with
  | fired hcause _ _ _ => exact hcause
  | idle hnone _ _ _ =>
    rw [hnone] at ht
    cases ht
  | entered _ hnone _ =>
    rw [hnone] at ht
    cases ht

end Statechart.Interpreter
