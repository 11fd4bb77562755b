import Statechart.Proofs.Accepting
import Statechart.Proofs.Conditions
import Statechart.Proofs.Footing
import Statechart.Proofs.Resume

/-!
What a session stands on under the strict policy. However a running session came about, by
operations or by loading a snapshot, its footing is legal; and so it is whenever an operation
begins a microstep, also one that then fails.
-/

namespace Statechart.Interpreter

variable {σ : Type} {m : Interpreter σ}

theorem Footed.takeInternal {r s : Run σ} {e : Event} (h : m.Footed r)
    (htake : takeInternal r = some (e, s)) : m.Footed s :=
  h.alike (SameState.takeInternal htake).alike

theorem Footed.acts {r s : Run σ} (h : m.Footed r) (hacts : Acts r s) : m.Footed s :=
  h.alike (SameState.of_acts hacts).alike

theorem Footed.stop {r : Run σ} (h : m.Footed r) : m.Footed (m.stop r) :=
  (h.acts (m.acts_cancelAllInvokes r)).alike ⟨rfl, ⟨_, rfl⟩, rfl, rfl⟩

theorem Footed.publishPending {r : Run σ} (h : m.Footed r) :
    m.Footed (r.mapSession Session.publishPending) :=
  h.alike ⟨rfl, ⟨_, rfl⟩, rfl, rfl⟩

theorem Footed.settled {r : Run σ} (h : m.Footed r) : m.Footed (m.settled r) := by
  unfold Interpreter.settled
  dsimp only
  split
  · exact h.publishPending.stop
  · exact h.publishPending

theorem Footed.exhausted {r : Run σ} (h : m.Footed r) : m.Footed (m.exhausted r) :=
  (h.acts (.report r (by simp) _ _)).stop.publishPending

theorem footed_ready (r : Run σ) : m.Footed (m.ready r) :=
  (footed_reset r).alike ⟨rfl, ⟨_, rfl⟩, rfl, rfl⟩

/-- A session that a snapshot has been loaded into stands on what the snapshot names. -/
theorem footed_restore (hw : m.chart.WellFormed) (snap : Snapshot) (r : Run σ)
    (hrunning : (m.restore snap r).2.session.running = true) : m.Footed (m.restore snap r).2 := by
  have hsound := (m.sound_restore snap r).1
  cases hout : (m.restore snap r).1 with
  | some e =>
    rw [running_restore_fails hout] at hrunning
    cases hrunning
  | none =>
    have hadmissible : snap.Admissible m.chart := by
      rw [Snapshot.admissible_iff hw, ← Snapshot.restoreInto_succeeds]
      exact restore_eq_none.1 hout
    have hactive : (m.restore snap r).2.session.configuration.active = snap.activeIn m.chart := by
      rw [session_restore hout]
      exact Snapshot.active_restoreInto hw (restore_eq_none.1 hout)
    have hfooting : m.footing (m.restore snap r).2 = snap.activeIn m.chart := by
      rw [footing, Configuration.atomic, hactive]
      exact hadmissible.closed
    refine ⟨⟨_, (hsound.published hrunning).status⟩, hsound.known.histories, ?_, ?_⟩
    · rw [hfooting]
      exact hadmissible.legal hw
    · rw [hfooting, hactive]
      exact fun x hx => hx

section Strict

variable (hw : m.chart.WellFormed)
  (hcheck : m.config.checkLegality = true) (hfatal : m.config.legality = .fatal)

include hw hcheck hfatal

/-- What comes of a step that succeeds is footed, whatever the step is made for. -/
theorem footed_of_makes (cause : Cause) {r : Run σ} {out : Except StepError Step × Run σ}
    (h : m.Footed r) (hmakes : ∀ {step s}, out = (.ok step, s) → m.Makes ⟨cause, r, step, s⟩) :
    Leaves m.Footed (fun _ _ => True) out := by
  obtain ⟨result, s⟩ := out
  cases result with
  | error e => trivial
  | ok step => exact (Footed.moved hw hcheck hfatal h (hmakes rfl)).1

theorem footed_microstep (event : Option Event) {r : Run σ} (h : m.Footed r) :
    Leaves m.Footed (fun _ _ => True) (m.microstep event r) := by
  cases event with
  | none => exact footed_of_makes hw hcheck hfatal .eventless h id
  | some e => exact footed_of_makes hw hcheck hfatal (.external e) h id

/-- Between operations only a running session is known to be footed: a step that ends in an error
may have changed the configuration in part. -/
theorem lasts_footed : m.Lasts m.Footed (fun _ _ => True)
    (fun r => r.session.running = true → m.Footed r) where
  microstep event h := footed_microstep hw hcheck hfatal event h
  take := Footed.takeInternal
  startInvokes h := h.acts (m.acts_startInvokes _)
  settled h _ := h.settled
  exhausted h _ := h.exhausted
  fail _ hrunning := nomatch hrunning
  start _ := footed_of_makes hw hcheck hfatal .start (footed_ready _) fun h => ⟨⟨_, rfl⟩, h⟩
  running h := h
  reset _ _ := footed_reset _
  stop _ hrunning := nomatch hrunning

theorem Reachable.footed {r : Run σ} (h : m.Reachable r) (hrunning : r.session.running = true) :
    m.Footed r := by
  induction h with
  | new id world => exact footed_new id world
  | operate _ operation ih =>
    exact ((lasts_footed hw hcheck hfatal).operate operation ih).1 hrunning
  | restore _ snap _ => exact footed_restore hw snap _ hrunning
  | meanwhile _ _ _ ih => exact (ih hrunning).alike ⟨rfl, ⟨_, rfl⟩, rfl, rfl⟩

/-- Every microstep of an operation begins on a legal footing. -/
theorem footed_before {r : Run σ} (hr : m.Reachable r) (operation : Operation)
    {attempt : Attempt σ} (hattempt : attempt ∈ m.operateAttempts operation r) :
    m.Footed attempt.before := by
  rcases (lasts_footed hw hcheck hfatal).before_operateAttempts operation
    (hr.footed hw hcheck hfatal) attempt hattempt with h | h
  · rw [h]
    exact footed_ready r
  · exact h

end Strict

end Statechart.Interpreter
