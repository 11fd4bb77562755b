import Statechart.Host.Loopback
import Statechart.Proofs.Arrivals
import Statechart.Proofs.Numbering
import Statechart.Proofs.Worlds

/-!
Draining the queue. Events are taken from the front of the queue one by one while the session runs,
and those that come in meanwhile are put at its end. So the events handed over, followed by those
that are left, are the events that waited before, followed by those that came in; and what comes of
it is what would have come of the events handed over if they had been triggered in a row.
-/

namespace Statechart

namespace Interpreter

variable {σ : Type} (m : Interpreter σ)

/-- An event whose step fails stops the session. -/
theorem running_of_trigger_error {event : Event} {r s : Run σ} {e : StepError}
    (h : m.trigger event r = (.error e, s)) : s.session.running = false := by
  unfold trigger at h
  split at h
  · cases h
  · split at h
    · cases h
    · have hstopped := m.running_of_error (congrArg Prod.fst h)
      rw [h] at hstopped
      exact hstopped

/-- The run with the events `front` before those that wait. -/
def behind (front : List Event) (r : Run σ) : Run σ :=
  { r with queue := front ++ r.queue }

theorem trigger_behind (front : List Event) (event : Event) (r : Run σ) :
    m.trigger event (behind front r) =
      ((m.trigger event r).1, behind front (m.trigger event r).2) := by
  have hcarry : ∀ s : Run σ, behind front s = s.carry ⟨id, front, []⟩ := by
    intro s
    simp [behind, Run.carry]
  rw [hcarry, hcarry]
  exact operate_carry ⟨fun _ _ => rfl, fun _ _ => rfl, fun _ _ => rfl, fun _ _ => rfl⟩
    (.trigger event) r

theorem triggerAll_behind (front events : List Event) (r : Run σ) :
    m.triggerAll events (behind front r) =
      ((m.triggerAll events r).1, behind front (m.triggerAll events r).2) := by
  induction events generalizing r with
  | nil => rfl
  | cons event rest ih =>
    rw [triggerAll, triggerAll, m.trigger_behind]
    obtain ⟨outcome, s, hs⟩ : ∃ outcome s, m.trigger event r = (outcome, s) := ⟨_, _, rfl⟩
    rw [hs]
    cases outcome with
    | error e => rfl
    | ok summaries =>
      dsimp only
      rw [ih]

variable {m} {r : Run σ} {events : List Event} {out : Outcome × Run σ}

namespace HandsOver

/-- The first event is triggered as if it were still in the queue. -/
theorem trigger_front {s : Run σ} {event : Event} {rest : List Event} {outcome : Outcome}
    (hqueue : r.queue = event :: rest)
    (h : m.trigger event { r with queue := rest } = (outcome, s)) :
    m.trigger event r = (outcome, behind [event] s) := by
  have hfront : behind [event] { r with queue := rest } = r := by
    rw [behind, List.singleton_append, ← hqueue]
  rw [← hfront, m.trigger_behind, h]

/-- The events handed over have been triggered in a row. -/
theorem triggerAll (h : m.HandsOver r events out) :
    m.triggerAll events r = (out.1, behind events out.2) := by
  induction h with
  | stopped _ => rfl
  | empty _ _ => rfl
  | failed _ hqueue htrigger => rw [Interpreter.triggerAll, trigger_front hqueue htrigger]
  | next _ hqueue htrigger _ ih =>
    rw [Interpreter.triggerAll, trigger_front hqueue htrigger]
    dsimp only
    rw [m.triggerAll_behind, ih]
    simp [behind]

/-- No event is handed over twice, lost or overtaken. -/
theorem conserves (h : m.HandsOver r events out) :
    ∃ entries, out.2.journal = entries ++ r.journal ∧
      events ++ out.2.queue = r.queue ++ arrivalsIn entries := by
  have hstep : ∀ {r s : Run σ} {event : Event} {rest : List Event} {outcome : Outcome},
      r.queue = event :: rest → m.trigger event { r with queue := rest } = (outcome, s) →
      ∃ entries, s.journal = entries ++ r.journal ∧
        event :: s.queue = r.queue ++ arrivalsIn entries := by
    intro r s event rest outcome hqueue htrigger
    obtain ⟨entries, hjournal, hqueue'⟩ :=
      m.admits_operate (.trigger event) { r with queue := rest }
    rw [operate, htrigger] at hjournal hqueue'
    exact ⟨entries, hjournal, by rw [hqueue', hqueue, List.cons_append]⟩
  induction h with
  | stopped _ => exact ⟨[], rfl, by simp [arrivalsIn]⟩
  | empty _ _ => exact ⟨[], rfl, by simp [arrivalsIn]⟩
  | failed _ hqueue htrigger => exact hstep hqueue htrigger
  | next _ hqueue htrigger _ ih =>
    obtain ⟨older, hs, hs'⟩ := hstep hqueue htrigger
    obtain ⟨newer, hout, hout'⟩ := ih
    refine ⟨newer ++ older, by rw [hout, hs, List.append_assoc], ?_⟩
    rw [arrivalsIn_append, ← List.append_assoc, ← hs', List.cons_append, List.cons_append, hout']

/-- If the session still runs, nothing is left. -/
theorem queue_eq_nil (h : m.HandsOver r events out) (hrunning : out.2.session.running = true) :
    out.2.queue = [] := by
  induction h with
  | stopped hstopped =>
    rw [hstopped] at hrunning
    cases hrunning
  | empty _ hqueue => exact hqueue
  | failed _ _ htrigger =>
    rw [m.running_of_trigger_error htrigger] at hrunning
    cases hrunning
  | next _ _ _ _ ih => exact ih hrunning

/-- Before the last of the events the session runs. -/
theorem running_take (h : m.HandsOver r events out) {k : Nat} (hk : k < events.length) :
    (m.triggerAll (events.take k) r).2.session.running = true := by
  induction h generalizing k with
  | stopped _ => cases hk
  | empty _ _ => cases hk
  | failed hrunning _ _ =>
    obtain rfl : k = 0 := Nat.lt_one_iff.1 hk
    exact hrunning
  | next hrunning hqueue htrigger _ ih =>
    cases k with
    | zero => exact hrunning
    | succ k =>
      rw [List.take_succ_cons, Interpreter.triggerAll, trigger_front hqueue htrigger]
      dsimp only
      rw [m.triggerAll_behind]
      exact ih (Nat.lt_of_succ_lt_succ hk)

end HandsOver

/-- Draining loses, duplicates and reorders nothing: the events handed over and then those left in
the queue are the events that waited and then those that came in. Events are left only if the
session has stopped. If nothing comes in, the events handed over are a prefix of the queue, the
shortest one after which the session does not run or else the whole queue, and the outcome is that
of triggering this prefix. -/
theorem drainQueue_conserves (m : Interpreter σ) {rounds : Nat} {r : Run σ}
    {out : Outcome × Run σ} (h : m.drainQueue rounds r = some out) :
    ∃ handed entries, m.HandsOver r handed out ∧ out.2.journal = entries ++ r.journal ∧
      handed ++ out.2.queue = r.queue ++ arrivalsIn entries ∧
      (out.2.queue ≠ [] → out.2.session.running = false) ∧
      (arrivalsIn entries = [] →
        handed <+: r.queue ∧
        m.triggerAll handed r = (out.1, { out.2 with queue := r.queue }) ∧
        (out.2.session.running = false ∨ handed = r.queue) ∧
        ∀ k < handed.length, (m.triggerAll (r.queue.take k) r).2.session.running = true) := by
  obtain ⟨handed, hover, -⟩ := m.drainQueue_eq_some_iff.1 h
  obtain ⟨entries, hjournal, hqueue⟩ := hover.conserves
  have hleft : out.2.queue ≠ [] → out.2.session.running = false := by
    intro hne
    cases hrunning : out.2.session.running with
    | false => rfl
    | true => exact absurd (hover.queue_eq_nil hrunning) hne
  refine ⟨handed, entries, hover, hjournal, hqueue, hleft, ?_⟩
  intro hnone
  rw [hnone, List.append_nil] at hqueue
  refine ⟨⟨out.2.queue, hqueue⟩, ?_, ?_, ?_⟩
  · rw [hover.triggerAll, behind, hqueue]
  · by_cases hempty : out.2.queue = []
    · rw [hempty, List.append_nil] at hqueue
      exact .inr hqueue
    · exact .inl (hleft hempty)
  · intro k hk
    rw [← hqueue, List.take_append_of_le_length hk.le]
    exact hover.running_take hk

/-- The beacon hears itself. -/
def echo : Interpreter Loopback :=
  ⟨Outline.beacon.chart, .minimal, .loopback .none, .default⟩

/-- The beacon has been lit, which it hears of in the queue, and is told to light again. -/
def echoRun : Run Loopback :=
  let r := (echo.go (Run.new secondId .empty)).2
  { r with queue := r.queue ++ [.signal "again"] }

/-- The beacon hears once more that it is lit, while the queue is drained. -/
theorem drainQueue_conserves_echo :
    ∃ out, echo.drainQueue 3 echoRun = some out ∧
      ∃ handed entries, echo.HandsOver echoRun handed out ∧
        handed ++ out.2.queue = echoRun.queue ++ arrivalsIn entries := by
  have hsome : (echo.drainQueue 3 echoRun).isSome = true := by decide +kernel
  obtain ⟨out, hout⟩ := Option.isSome_iff_exists.1 hsome
  obtain ⟨handed, entries, hover, -, hqueue, -⟩ := drainQueue_conserves echo hout
  exact ⟨out, hout, handed, entries, hover, hqueue⟩

end Interpreter

end Statechart
