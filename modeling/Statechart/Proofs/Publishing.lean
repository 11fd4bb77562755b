import Mathlib.Data.List.Induction
import Statechart.Proofs.Settling
import Statechart.Snapshot.Restore

/-!
What is published of a session. Every step and every macrostep ends by bringing the status up to
date, and so does loading a snapshot. What happens after that can leave the status behind: ending
a session cancels its services, a service that refuses raises an event which the status does not
count any more, and a step that fails publishes nothing. Nothing else does, and a session that
runs is never behind.
-/

namespace Statechart

/-- The entry notes that a service refuses to be cancelled. -/
def Entry.refusesCancel : Entry → Bool
  | .cancelInvoke _ reply => reply.refusal.isSome
  | _ => false

/-- How often a service has refused to be cancelled. -/
def Run.refusals {σ : Type} (r : Run σ) : Nat :=
  r.journal.countP Entry.refusesCancel

namespace Session

variable {c : Chart} {session : Session}

/-- The status shows the configuration as it is, whatever number of events it tells. -/
def Shown (c : Chart) (session : Session) : Prop :=
  session.status = Status.capture c session.configuration session.status.pending

/-- The status is that of the session as it is now. -/
def Current (c : Chart) (session : Session) : Prop :=
  session.status = Status.capture c session.configuration session.internal.length

theorem Current.shown (h : session.Current c) : session.Shown c := by
  unfold Shown
  rw [h]
  rfl

theorem current_publish (c : Chart) (session : Session) : (session.publish c).Current c :=
  rfl

theorem current_new (c : Chart) (id : SessionId) : (new id).Current c :=
  rfl

theorem current_fresh (c : Chart) (shared : Bool) (id : SessionId) :
    (fresh c shared id).Current c :=
  rfl

theorem Shown.publishPending (h : session.Shown c) : session.publishPending.Current c := by
  have hpending := congrArg
    (fun status : Status => { status with pending := session.internal.length }) h
  exact hpending

end Session

/-- A status is final exactly if the only active state without children is a final one at the top
level and no event waits. -/
theorem Status.isFinal_capture (c : Chart) (conf : Configuration) (pending : Nat) :
    (Status.capture c conf pending).isFinal = true ↔
      (∃ s, (conf.atomic c).members = [s] ∧ c.kind s = .final ∧ c.parent s = none) ∧
        pending = 0 := by
  simp only [Status.isFinal, Status.capture, Bool.and_eq_true]
  apply and_congr ?_ decide_eq_true_iff
  constructor
  · intro hsome
    split at hsome
    · next s hs =>
      split at hsome
      · next hfinal => exact ⟨s, hs, hfinal⟩
      · cases hsome
    · cases hsome
  · rintro ⟨s, hs, hfinal⟩
    rw [hs]
    simp [hfinal]

section Effects

variable {σ : Type} {c : Chart} {known : Nat → Prop} {r s : Run σ}

theorem Evolves.shown (h : Evolves known r s) (hr : r.session.Shown c) : s.session.Shown c := by
  unfold Session.Shown
  rw [h.status, h.configuration]
  exact hr

theorem Acts.shown {r s : Run σ} (h : Acts r s) (hr : r.session.Shown c) : s.session.Shown c :=
  (show Evolves (fun _ => True) r s from .acts h).shown hr

theorem Posts.refusals_le (h : Posts r s) : r.refusals ≤ s.refusals := by
  obtain ⟨entries, hjournal, -⟩ := h
  rw [Run.refusals, Run.refusals, hjournal, List.countP_append]
  exact Nat.le_add_left _ _

end Effects

/-- From the run `r` to the run `s` as many events are raised as cancellations are refused. -/
def RaisesRefusals {σ : Type} (r s : Run σ) : Prop :=
  s.session.internal.length + r.refusals = r.session.internal.length + s.refusals

namespace RaisesRefusals

variable {σ : Type} {r s t : Run σ}

theorem of_eq (hinternal : s.session.internal = r.session.internal)
    (hjournal : s.journal = r.journal) : RaisesRefusals r s := by
  rw [RaisesRefusals, Run.refusals, Run.refusals, hinternal, hjournal]

theorem trans (hrs : RaisesRefusals r s) (hst : RaisesRefusals s t) : RaisesRefusals r t := by
  unfold RaisesRefusals at *
  omega

theorem foldl {α : Type} {f : Run σ → α → Run σ} (h : ∀ r x, RaisesRefusals r (f r x))
    (xs : List α) (r : Run σ) : RaisesRefusals r (xs.foldl f r) := by
  induction xs generalizing r with
  | nil => exact .of_eq rfl rfl
  | cons x rest ih => exact (h r x).trans (ih (f r x))

end RaisesRefusals

namespace Interpreter

variable {σ : Type} (m : Interpreter σ)

theorem raisesRefusals_cancelInvoke (s : Nat) (invokeId : String) (r : Run σ) :
    RaisesRefusals r (m.cancelInvoke s invokeId r) := by
  unfold cancelInvoke
  dsimp only
  split
  · next haccepts =>
    simp [RaisesRefusals, Run.refusals, Run.hear, Run.note, Entry.refusesCancel, haccepts]
  · next hrefuses =>
    simp [RaisesRefusals, Run.refusals, Run.hear, Run.note, Entry.refusesCancel, hrefuses,
      invokeRefused, Run.report, Run.raise, Run.mapSession, Session.raise]
    omega

theorem raisesRefusals_cancelInvokes (s : Nat) (r : Run σ) :
    RaisesRefusals r (m.cancelInvokes s r) := by
  unfold cancelInvokes
  split
  · exact .of_eq rfl rfl
  · exact (RaisesRefusals.of_eq rfl rfl).trans
      (.foldl (fun r invokeId => m.raisesRefusals_cancelInvoke s invokeId r) _ _)

theorem raisesRefusals_stop (r : Run σ) : RaisesRefusals r (m.stop r) :=
  (RaisesRefusals.foldl (fun r s => m.raisesRefusals_cancelInvokes s r) _ r).trans (.of_eq rfl rfl)

theorem refusals_le_stop (r : Run σ) : r.refusals ≤ (m.stop r).refusals :=
  (m.acts_cancelAllInvokes r).posts.refusals_le

theorem shown_stop {r : Run σ} (h : r.session.Shown m.chart) :
    (m.stop r).session.Shown m.chart :=
  (m.acts_cancelAllInvokes r).shown h

/-- A session that ends has a current status unless a service refuses to be cancelled. -/
theorem current_stop {r : Run σ} (h : r.session.Current m.chart) :
    (m.stop r).session.Current m.chart ∨ r.refusals < (m.stop r).refusals := by
  rcases Nat.lt_or_ge r.refusals (m.stop r).refusals with hlt | hge
  · exact .inr hlt
  · left
    have hshown : (m.stop r).session.Shown m.chart := m.shown_stop h.shown
    have hpending : (m.stop r).session.status.pending = r.session.internal.length := by
      have hstatus := (m.acts_cancelAllInvokes r).status
      rw [show (m.stop r).session.status = r.session.status from hstatus, h]
      rfl
    have hlength : (m.stop r).session.internal.length = r.session.internal.length := by
      have hraises := m.raisesRefusals_stop r
      have hle := m.refusals_le_stop r
      unfold RaisesRefusals at hraises
      omega
    rw [Session.Current, hlength, ← hpending]
    exact hshown

theorem current_settled {r : Run σ} (h : r.session.Shown m.chart) :
    (m.settled r).session.Current m.chart ∨
      (m.settled r).session.running = false ∧ r.refusals < (m.settled r).refusals := by
  unfold settled
  dsimp only
  split
  · exact (m.current_stop h.publishPending).imp_right fun hlt => ⟨rfl, hlt⟩
  · exact .inl h.publishPending

/-- A macrostep that has used up its microsteps publishes after it has cancelled all services. -/
theorem current_exhausted {r : Run σ} (h : r.session.Shown m.chart) :
    (m.exhausted r).session.Current m.chart := by
  have hreported : (r.report .loopLimit ("macrostep exceeded " ++
      toString m.config.maxMicrosteps ++ " microsteps, stopping") none).session.Shown m.chart := h
  exact (m.shown_stop hreported).publishPending

variable {m}

theorem shown_carryOut {step step' : Step} {r s : Run σ} (h : m.carryOut step r = (.ok step', s)) :
    s.session.Shown m.chart := by
  obtain ⟨conf, -, rfl, -⟩ := m.carryOut_ok h
  exact (Session.current_publish _ _).shown

theorem shown_initialStep {step : Step} {r s : Run σ} (h : m.initialStep r = (.ok step, s)) :
    s.session.Shown m.chart := by
  unfold initialStep at h
  dsimp only at h
  split at h
  · exact shown_carryOut h
  · split at h
    · cases h
    · exact shown_carryOut h

theorem shown_microstep {event : Option Event} {step : Step} {r s : Run σ}
    (hr : r.session.Shown m.chart) (h : m.microstep event r = (.ok step, s)) :
    s.session.Shown m.chart := by
  have hselected : (m.selectFor event r).2.session.Shown m.chart :=
    (m.acts_selectFor event r).shown hr
  have hstep := m.microstep_spec event r
  rw [h] at hstep
  generalize hout : (Except.ok step, s) = out at hstep
  cases hstep with
  | idle hselect _ _ _ =>
    obtain ⟨-, rfl⟩ := Prod.mk.inj hout
    rw [hselect] at hselected
    exact hselected
  | refused _ _ _ => cases hout
  | fired _ _ _ _ _ => exact shown_carryOut hout.symm

theorem shown_makes {move : Move σ} (h : m.Makes move)
    (hbefore : move.before.session.Shown m.chart) :
    move.after.session.Shown m.chart := by
  unfold Makes at h
  split at h
  · exact shown_initialStep h.2
  · exact shown_microstep hbefore h
  · obtain ⟨r, htake, h⟩ := h
    unfold takeInternal at htake
    split at htake
    · cases htake
    · obtain ⟨rfl, rfl⟩ := Prod.mk.inj (Option.some.inj htake)
      refine shown_microstep ?_ h
      exact hbefore
  · exact shown_microstep hbefore h

/-- What is shown once is shown all the way. -/
theorem Passes.shown {r t : Run σ} {stages : List (Stage σ)} (h : m.Passes r stages t)
    (hr : r.session.Shown m.chart) : t.session.Shown m.chart := by
  induction h with
  | done r => exact hr
  | acts h _ ih => exact ih (h.shown hr)
  | publishPending _ ih => exact ih hr.publishPending.shown
  | halt _ ih => exact ih hr
  | moved h _ _ ih => exact ih (shown_makes h hr)
  | reset _ ih => exact ih (Session.current_publish _ _).shown
  | go h _ ih => exact ih (shown_initialStep h)

theorem refusals_le_ready (r : Run σ) : r.refusals ≤ (m.ready r).refusals :=
  (m.acts_cancelAllInvokes r).posts.refusals_le.trans (m.posts_ready r).refusals_le

/-- Along a course on which the session is not cleared refusals are only added. -/
theorem Passes.refusals_le {r s : Run σ} {stages : List (Stage σ)} (h : m.Passes r stages s)
    (hkept : .cleared ∉ stages) : r.refusals ≤ s.refusals := by
  obtain ⟨entries, hjournal, -⟩ := h.accounts hkept
  rw [Run.refusals, Run.refusals, hjournal, List.countP_append]
  exact Nat.le_add_left _ _

/-- A macrostep that succeeds leaves the status current, or it has stopped the session and met a
refusal. -/
theorem current_complete {step : Step} {s : Run σ} {summaries : List Summary}
    (hs : s.session.Shown m.chart) (h : (m.complete (.ok step, s)).1 = .ok summaries) :
    (m.complete (.ok step, s)).2.session.Current m.chart ∨
      (m.complete (.ok step, s)).2.session.running = false ∧
        s.refusals < (m.complete (.ok step, s)).2.refusals := by
  unfold complete at h ⊢
  cases hsettle : m.settle m.config.maxMicrosteps s with
  | mk rest t =>
    cases rest with
    | error e => simp [hsettle, Except.map] at h
    | ok rest =>
      obtain ⟨u, hpasses, hend⟩ := settle_ends m.config.maxMicrosteps (congrArg Prod.fst hsettle)
      have hle := hpasses.refusals_le (m.cleared_not_mem_settleCourse _ _)
      have hu := hpasses.shown hs
      simp only [hsettle, Except.map] at hend ⊢
      rcases hend with rfl | rfl
      · exact (m.current_settled hu).imp_right fun ⟨hstopped, hlt⟩ =>
          ⟨hstopped, Nat.lt_of_le_of_lt hle hlt⟩
      · exact .inl (m.current_exhausted hu)

/-- What can be asked of a session from outside, loading a snapshot included. -/
inductive Call where
  | operate (operation : Operation)
  | restore (snap : Snapshot)

/-- The session is begun anew, whatever was there before. -/
def Call.Clears : Call → Prop
  | operate .go | operate .reset | restore _ => True
  | operate .stop | operate (.trigger _) => False

variable (m) in
def call : Call → Run σ → Run σ
  | .operate operation, r => (m.operate operation r).2
  | .restore snap, r => (m.restore snap r).2

variable (m) in
def callAll (calls : List Call) (r : Run σ) : Run σ :=
  calls.foldl (fun r call => m.call call r) r

variable (m) in
/-- The call ends in an error of a step, or a service refuses to be cancelled in it. -/
def Slips (call : Call) (r : Run σ) : Prop :=
  (∃ operation e, call = .operate operation ∧ (m.operate operation r).1 = .error e) ∨
    r.refusals < (m.call call r).refusals

variable (m) in
theorem current_restore (snap : Snapshot) (r : Run σ) :
    (m.restore snap r).2.session.Current m.chart := by
  unfold restore Snapshot.restoreInto
  dsimp only
  split
  · next session hinto =>
    split at hinto
    · cases hinto
    · split at hinto
      · cases hinto
      · obtain ⟨-, rfl⟩ := Prod.mk.inj hinto
        exact Session.current_publish _ _
  · exact Session.current_fresh _ _ _

/-- What one operation does to a current status, and what it does to any status if it clears the
session. -/
theorem current_operate (operation : Operation) {r : Run σ}
    (hr : Call.Clears (.operate operation) ∨ r.session.Current m.chart) :
    (m.operate operation r).2.session.Current m.chart ∨
      (m.operate operation r).2.session.running = false ∧ m.Slips (.operate operation) r := by
  have hcomplete : ∀ first : Except StepError Step × Run σ,
      m.operate operation r = m.complete first →
      (∀ step s, first = (.ok step, s) → s.session.Shown m.chart ∧ r.refusals ≤ s.refusals) →
      (m.operate operation r).2.session.Current m.chart ∨
        (m.operate operation r).2.session.running = false ∧ m.Slips (.operate operation) r := by
    intro first hfirst hok
    cases hout : (m.complete first).1 with
    | error e =>
      right
      rw [hfirst]
      exact ⟨m.running_of_error hout, .inl ⟨operation, e, rfl, by rw [hfirst, hout]⟩⟩
    | ok summaries =>
      obtain ⟨step, s, rfl⟩ := ok_of_complete first hout
      obtain ⟨hs, hle⟩ := hok step s rfl
      rcases current_complete hs hout with hcurrent | ⟨hstopped, hlt⟩
      · exact .inl (by rwa [hfirst])
      · refine .inr ⟨by rwa [hfirst], .inr ?_⟩
        rw [call, hfirst]
        exact Nat.lt_of_le_of_lt hle hlt
  have hstop : r.session.Current m.chart → m.operate operation r = (.ok [], m.stop r) →
      (m.operate operation r).2.session.Current m.chart ∨
        (m.operate operation r).2.session.running = false ∧ m.Slips (.operate operation) r := by
    intro hcurrent heq
    rcases m.current_stop hcurrent with hcurrent | hlt
    · exact .inl (by rwa [heq])
    · refine .inr ⟨by rw [heq]; rfl, .inr ?_⟩
      rwa [call, heq]
  cases operation with
  | go =>
    refine hcomplete _ rfl ?_
    intro step s hfirst
    have hle := (m.posts_initialStep (m.ready r)).refusals_le
    rw [show m.initialStep (m.ready r) = (.ok step, s) from hfirst] at hle
    exact ⟨shown_initialStep hfirst, (refusals_le_ready r).trans hle⟩
  | reset => exact .inl (Session.current_publish _ _)
  | stop => exact hstop (hr.resolve_left id) rfl
  | trigger event =>
    have hcurrent := hr.resolve_left id
    by_cases hrunning : r.session.running = true
    · by_cases hkind : event.kind = .cancel
      · exact hstop hcurrent (by simp [operate, trigger, hrunning, hkind])
      · refine hcomplete (m.microstep (some event) r)
          (by simp [operate, trigger, hrunning, hkind]) ?_
        intro step s hfirst
        have hle := (m.posts_microstep (some event) r).refusals_le
        rw [hfirst] at hle
        exact ⟨shown_microstep hcurrent.shown hfirst, hle⟩
    · left
      simpa [operate, trigger, hrunning] using hcurrent

theorem current_call (call : Call) {r : Run σ}
    (hr : call.Clears ∨ r.session.Current m.chart) :
    (m.call call r).session.Current m.chart ∨
      (m.call call r).session.running = false ∧ m.Slips call r := by
  cases call with
  | operate operation => exact current_operate operation hr
  | restore snap => exact .inl (m.current_restore snap r)

/-- A session that does not run is not set going by a call that does not clear it. -/
theorem running_call {call : Call} (hclears : ¬ call.Clears) {r : Run σ}
    (hr : r.session.running = false) : (m.call call r).session.running = false := by
  match call with
  | .operate .stop => rfl
  | .operate (.trigger event) => simp [Interpreter.call, operate, trigger, hr]
  | .operate .go | .operate .reset | .restore snap => exact absurd trivial hclears

/-- After every call the status is that of the session as it is, and tells how many internal events
wait and whether the session rests in a final state at the top level; or else the session does not
run, and since it was last cleared there has been a call that failed or in which a service refused
to be cancelled. -/
theorem status_current (m : Interpreter σ) (calls : List Call) (id : SessionId) (world : σ) :
    let r := m.callAll calls (Run.new id world)
    (r.session.status =
        Status.capture m.chart r.session.configuration r.session.internal.length ∧
      r.session.status.pending = r.session.internal.length ∧
      (r.session.status.isFinal = true ↔
        (∃ s, (r.session.configuration.atomic m.chart).members = [s] ∧
          m.chart.kind s = .final ∧ m.chart.parent s = none) ∧ r.session.internal = [])) ∨
    (r.session.running = false ∧ ∃ earlier call later, calls = earlier ++ call :: later ∧
      m.Slips call (m.callAll earlier (Run.new id world)) ∧ ∀ other ∈ later, ¬ other.Clears) := by
  intro r
  suffices h : r.session.Current m.chart ∨
      (r.session.running = false ∧ ∃ earlier call later, calls = earlier ++ call :: later ∧
        m.Slips call (m.callAll earlier (Run.new id world)) ∧
          ∀ other ∈ later, ¬ other.Clears) by
    refine h.imp_left fun hcurrent => ?_
    rw [Session.Current] at hcurrent
    refine ⟨hcurrent, by rw [hcurrent]; rfl, ?_⟩
    rw [hcurrent, Status.isFinal_capture, List.length_eq_zero_iff]
  -- From the last call backwards: it either brings the status up to date, or it is the one that
  -- slips, or it changes nothing about a session that was stopped before.
  induction calls using List.reverseRecOn with
  | nil => exact .inl (Session.current_new _ _)
  | append_singleton calls last ih =>
    have hr : r = m.call last (m.callAll calls (Run.new id world)) := by
      simp [r, callAll]
    rw [hr]
    rcases Classical.em (last.Clears ∨
      (m.callAll calls (Run.new id world)).session.Current m.chart) with hready | hbehind
    · refine (current_call last hready).imp_right ?_
      rintro ⟨hstopped, hslips⟩
      exact ⟨hstopped, calls, last, [], rfl, hslips, by simp⟩
    · rw [not_or] at hbehind
      obtain ⟨hstopped, earlier, call, later, rfl, hslips, hlater⟩ := ih.resolve_left hbehind.2
      refine .inr ⟨running_call hbehind.1 hstopped, earlier, call, later ++ [last], by simp, hslips,
        ?_⟩
      intro other hother
      rcases List.mem_append.1 hother with hother | hother
      · exact hlater other hother
      · rw [List.mem_singleton.1 hother]
        exact hbehind.1

end Interpreter

/-- One state with a service. -/
def Outline.watch : Outline where
  name := none
  datamodel := none
  initial := []
  states := [
    .mk { StateHead.named "watch" .plain [] [] with
      invokes := [⟨some "alarm", "service", none, []⟩] } []]
  data := []

theorem Outline.build_watch : Outline.watch.build = .ok Outline.watch.chart :=
  build_eq_ok rfl (by decide +kernel) (by decide +kernel)

namespace Interpreter

/-- Takes the outline with a host that cancels no service. -/
def stubborn : Interpreter Unit :=
  ⟨Outline.watch.chart, .minimal, .refusing { Refusals.none with
    cancelInvoke := fun id => some (.failed id "cancel refused") }, .default⟩

/-- A session is stopped, and its service refuses to be cancelled: an event waits that the status
does not tell of. -/
theorem exists_not_current : ¬ ∀ (o : Outline) (m : Interpreter Unit), o.build = .ok m.chart →
    ∀ (calls : List Call) (id : SessionId),
      let r := m.callAll calls (Run.new id ())
      r.session.status =
        Status.capture m.chart r.session.configuration r.session.internal.length := by
  intro h
  have hstatus := h .watch stubborn Outline.build_watch [.operate .go, .operate .stop] secondId
  exact absurd (congrArg Status.pending hstatus) (by decide +kernel)

end Interpreter

end Statechart
