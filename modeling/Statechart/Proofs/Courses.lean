import Statechart.Proofs.Operations

/-!
The course of a run: the microsteps that operations make, in order, each with what it is made
for and with the runs before and after it. A course follows the loop of a macrostep from the
outside; `Passes` says from the inside what happens along it, so a property of courses is shown
by one induction over `Passes` and needs nothing of the loop.
-/

namespace Statechart

/-- What a microstep is made for. -/
inductive Cause where
  /-- The start of the chart is entered. -/
  | start
  | eventless
  | internal (event : Event)
  | external (event : Event)

def Cause.internal? : Cause → Option Event
  | internal event => some event
  | _ => none

/-- A microstep: what it is made for, the run before it, its account and the run after it.
Before the microstep for an internal event that event still waits. -/
structure Move (σ : Type) where
  cause : Cause
  before : Run σ
  step : Step
  after : Run σ

inductive Stage (σ : Type) where
  /-- The session is cleared. -/
  | cleared
  | moved (move : Move σ)

namespace Stage

variable {σ : Type}

def move? : Stage σ → Option (Move σ)
  | cleared => none
  | moved move => some move

/-- The internal events handed to microsteps, in order. -/
def handed (stages : List (Stage σ)) : List Event :=
  stages.filterMap fun stage => stage.move?.bind (·.cause.internal?)

@[simp] theorem handed_nil : handed ([] : List (Stage σ)) = [] := rfl

theorem handed_append (xs ys : List (Stage σ)) :
    handed (xs ++ ys) = handed xs ++ handed ys :=
  List.filterMap_append

end Stage

namespace Interpreter

variable {σ : Type} (m : Interpreter σ)

/-- The session is cleared and runs; no state is entered yet. -/
def ready (r : Run σ) : Run σ :=
  (m.reset r).mapSession fun session => { session with running := true }

def roundCourse (r : Run σ) : List (Stage σ) :=
  match m.microstep none r with
  | (.error _, _) => []
  | (.ok step, s) =>
    .moved ⟨.eventless, r, step, s⟩ ::
      if step.hasFired then []
      else
        match takeInternal s with
        | none => []
        | some (e, t) =>
          match m.microstep (some e) t with
          | (.error _, _) => []
          | (.ok step, u) => [.moved ⟨.internal e, s, step, u⟩]

def settleCourse : (budget : Nat) → Run σ → List (Stage σ)
  | 0, _ => []
  | budget + 1, r =>
    m.roundCourse r ++
      match m.round r with
      | .failed _ _ => []
      | .moved _ s => settleCourse budget s
      | .idle s =>
        let s := m.startInvokes s
        if s.session.internal.isEmpty then []
        else
          m.roundCourse s ++
            match m.round s with
            | .moved _ t => settleCourse budget t
            | _ => []

/-- The course of a macrostep that begins in the run `r` with the microstep `first`. -/
def completeCourse (cause : Cause) (r : Run σ) (first : Except StepError Step × Run σ) :
    List (Stage σ) :=
  match first with
  | (.error _, _) => []
  | (.ok step, s) => .moved ⟨cause, r, step, s⟩ :: m.settleCourse m.config.maxMicrosteps s

def operateCourse : Operation → Run σ → List (Stage σ)
  | .go, r => .cleared :: m.completeCourse .start (m.ready r) (m.initialStep (m.ready r))
  | .reset, _ => [.cleared]
  | .stop, _ => []
  | .trigger event, r =>
    if !r.session.running then []
    else if event.kind = .cancel then []
    else m.completeCourse (.external event) r (m.microstep (some event) r)

def course : List Operation → Run σ → List (Stage σ)
  | [], _ => []
  | operation :: rest, r => m.operateCourse operation r ++ course rest (m.operate operation r).2

/-- None of the operations ends in an error. -/
def Succeed : List Operation → Run σ → Prop
  | [], _ => True
  | operation :: rest, r =>
    (∃ summaries, (m.operate operation r).1 = .ok summaries) ∧
      Succeed rest (m.operate operation r).2

/-- The move is one that the interpreter makes from the run before it. -/
def Makes (move : Move σ) : Prop :=
  match move.cause with
  | .start =>
    (∃ r, move.before = m.ready r) ∧ m.initialStep move.before = (.ok move.step, move.after)
  | .eventless => m.microstep none move.before = (.ok move.step, move.after)
  | .internal e =>
    ∃ r, takeInternal move.before = some (e, r) ∧
      m.microstep (some e) r = (.ok move.step, move.after)
  | .external e => m.microstep (some e) move.before = (.ok move.step, move.after)

/-- From a run to a run with the given stages on the way. Between two moves services act, what
is published is brought up to date, and the session may stop. -/
inductive Passes : Run σ → List (Stage σ) → Run σ → Prop where
  | done (r : Run σ) : Passes r [] r
  | acts {r s t : Run σ} {stages : List (Stage σ)} (h : Acts r s) (rest : Passes s stages t) :
    Passes r stages t
  | publishPending {r t : Run σ} {stages : List (Stage σ)}
      (rest : Passes (r.mapSession Session.publishPending) stages t) : Passes r stages t
  | halt {r t : Run σ} {stages : List (Stage σ)}
      (rest : Passes (r.mapSession fun session => { session with running := false }) stages t) :
    Passes r stages t
  | moved {move : Move σ} {t : Run σ} {stages : List (Stage σ)} (h : m.Makes move)
      (hcause : move.cause ≠ .start) (rest : Passes move.after stages t) :
    Passes move.before (.moved move :: stages) t
  | reset {r t : Run σ} {stages : List (Stage σ)} (rest : Passes (m.reset r) stages t) :
    Passes r (.cleared :: stages) t
  | go {r s t : Run σ} {step : Step} {stages : List (Stage σ)}
      (h : m.initialStep (m.ready r) = (.ok step, s)) (rest : Passes s stages t) :
    Passes r (.cleared :: .moved ⟨.start, m.ready r, step, s⟩ :: stages) t

variable {m}

theorem Invariant.makes {P : Run σ → Prop} {Q : StepError → Run σ → Prop} (hinv : m.Invariant P Q)
    {move : Move σ} (h : m.Makes move) (hcause : move.cause ≠ .start) (hbefore : P move.before) :
    P move.after := by
  have hstep : ∀ (event : Option Event) {r : Run σ}, P r →
      m.microstep event r = (.ok move.step, move.after) → P move.after := by
    intro event r hr hmicrostep
    have hleaves := hinv.microstep event hr
    rwa [hmicrostep] at hleaves
  unfold Makes at h
  split at h
  · next hstart => exact absurd hstart hcause
  · exact hstep none hbefore h
  · next e _ =>
    obtain ⟨r, htake, h⟩ := h
    exact hstep (some e) (hinv.takeInternal hbefore htake) h
  · next e _ => exact hstep (some e) hbefore h

namespace Passes

theorem append {r s t : Run σ} {xs ys : List (Stage σ)} (hxs : m.Passes r xs s)
    (hys : m.Passes s ys t) : m.Passes r (xs ++ ys) t := by
  induction hxs with
  | done r => exact hys
  | acts h _ ih => exact .acts h (ih hys)
  | publishPending _ ih => exact .publishPending (ih hys)
  | halt _ ih => exact .halt (ih hys)
  | moved h hcause _ ih => exact .moved h hcause (ih hys)
  | reset _ ih => exact .reset (ih hys)
  | go h _ ih => exact .go h (ih hys)

/-- What passes passes any move on its way from the run before it to the run after it. -/
theorem split {r t : Run σ} {xs ys : List (Stage σ)} {move : Move σ}
    (h : m.Passes r (xs ++ .moved move :: ys) t) (hcause : move.cause ≠ .start) :
    m.Passes r xs move.before ∧ m.Makes move ∧ m.Passes move.after ys t := by
  generalize hstages : xs ++ .moved move :: ys = stages at h
  induction h generalizing xs with
  | done r => simp at hstages
  | acts h _ ih => exact (ih hstages).imp_left (.acts h)
  | publishPending _ ih => exact (ih hstages).imp_left .publishPending
  | halt _ ih => exact (ih hstages).imp_left .halt
  | @moved move' t stages h hcause' rest ih =>
    cases xs with
    | nil =>
      obtain ⟨⟨rfl⟩, rfl⟩ := List.cons.inj hstages
      exact ⟨.done _, h, rest⟩
    | cons x xs =>
      obtain ⟨rfl, hrest⟩ := List.cons.inj hstages
      exact (ih hrest).imp_left (.moved h hcause')
  | reset _ ih =>
    cases xs with
    | nil => cases hstages
    | cons x xs =>
      obtain ⟨rfl, hrest⟩ := List.cons.inj hstages
      exact (ih hrest).imp_left .reset
  | @go r s t step stages h rest ih =>
    match xs with
    | [] => cases hstages
    | [x] =>
      obtain ⟨-, hrest⟩ := List.cons.inj hstages
      obtain ⟨⟨rfl⟩, -⟩ := List.cons.inj hrest
      exact absurd rfl hcause
    | x :: y :: xs =>
      simp only [List.cons_append, List.cons.injEq] at hstages
      obtain ⟨rfl, rfl, hrest⟩ := hstages
      exact (ih hrest).imp_left (.go h)

theorem makes {r t : Run σ} {stages : List (Stage σ)} (h : m.Passes r stages t) {move : Move σ}
    (hmove : .moved move ∈ stages) : m.Makes move := by
  induction h with
  | done r => cases hmove
  | acts _ _ ih => exact ih hmove
  | publishPending _ ih => exact ih hmove
  | halt _ ih => exact ih hmove
  | moved h _ _ ih =>
    rcases List.mem_cons.1 hmove with heq | hmove
    · cases heq
      exact h
    · exact ih hmove
  | reset _ ih => exact ih (by simpa using hmove)
  | @go r s t step stages h rest ih =>
    simp only [List.mem_cons, Stage.moved.injEq, reduceCtorEq, false_or] at hmove
    rcases hmove with rfl | hmove
    · exact ⟨⟨r, rfl⟩, h⟩
    · exact ih hmove

/-- A property that lasts from the run before a stage to the run after it lasts all the way. -/
theorem preserves {P : Run σ → Prop} {Q : StepError → Run σ → Prop} (hinv : m.Invariant P Q)
    {r t : Run σ} {stages : List (Stage σ)} (h : m.Passes r stages t) (hr : P r) : P t := by
  induction h with
  | done r => exact hr
  | acts h _ ih => exact ih (hinv.acts hr h)
  | publishPending _ ih => exact ih (hinv.publishPending hr)
  | halt _ ih => exact ih (hinv.halt hr)
  | moved h hcause _ ih => exact ih (hinv.makes h hcause hr)
  | reset _ ih => exact ih (hinv.reset hr)
  | @go r s t step stages h rest ih =>
    have hstart := hinv.start hr
    rw [show m.initialStep ((m.reset r).mapSession fun session =>
      { session with running := true }) = (.ok step, s) from h] at hstart
    exact ih hstart

end Passes

theorem passes_stop (r : Run σ) : m.Passes r [] (m.stop r) :=
  .acts (m.acts_cancelAllInvokes r) (.halt (.done _))

/-- A round that does not fail passes the moves of its course. -/
theorem passes_round {r s : Run σ}
    (h : m.round r = .idle s ∨ ∃ step, m.round r = .moved step s) :
    m.Passes r (m.roundCourse r) s := by
  unfold round at h
  unfold roundCourse
  cases hfirst : m.microstep none r with
  | mk result s₁ =>
    cases result with
    | error e => simp [hfirst] at h
    | ok step =>
      have hmove : m.Makes ⟨.eventless, r, step, s₁⟩ := hfirst
      simp only [hfirst] at h ⊢
      split at h
      · next hfired =>
        obtain rfl : s₁ = s := by simpa using h
        rw [if_pos hfired]
        exact .moved hmove (by simp) (.done _)
      · next hfired =>
        rw [if_neg hfired]
        cases htake : takeInternal s₁ with
        | none =>
          simp only [htake] at h ⊢
          obtain rfl : s₁ = s := by simpa using h
          exact .moved hmove (by simp) (.done _)
        | some taken =>
          obtain ⟨e, t⟩ := taken
          cases hsecond : m.microstep (some e) t with
          | mk result u =>
            cases result with
            | error e => simp [htake, hsecond] at h
            | ok step' =>
              simp only [htake, hsecond] at h ⊢
              obtain rfl : u = s := by simpa using h
              have hmove' : m.Makes ⟨.internal e, s₁, step', u⟩ := ⟨t, htake, hsecond⟩
              exact .moved hmove (by simp) (.moved hmove' (by simp) (.done _))

theorem passes_settled (r : Run σ) : m.Passes r [] (m.settled r) := by
  unfold settled
  dsimp only
  split
  · exact .publishPending (passes_stop _)
  · exact .publishPending (.done _)

/-- A macrostep that does not fail passes the moves of its course up to its end, where the
session has settled or has used up its microsteps. -/
theorem settle_ends (budget : Nat) {r : Run σ} {summaries : List Summary}
    (h : (m.settle budget r).1 = .ok summaries) :
    ∃ t, m.Passes r (m.settleCourse budget r) t ∧
      ((m.settle budget r).2 = m.settled t ∨ (m.settle budget r).2 = m.exhausted t) := by
  induction budget generalizing r summaries with
  | zero => exact ⟨r, .done r, .inr rfl⟩
  | succ budget ih =>
    have hgoOn : ∀ {s : Run σ} {stages : List (Stage σ)} (step : Step), m.Passes r stages s →
        (m.settle budget s).1.map (m.summaryOf step ++ ·) = .ok summaries →
          ∃ t, m.Passes r (stages ++ m.settleCourse budget s) t ∧
            ((m.settle budget s).2 = m.settled t ∨ (m.settle budget s).2 = m.exhausted t) := by
      intro s stages step hpasses hs
      cases hrest : (m.settle budget s).1 with
      | error e => simp [hrest, Except.map] at hs
      | ok rest =>
        obtain ⟨t, ht, hend⟩ := ih hrest
        exact ⟨t, hpasses.append ht, hend⟩
    rw [settle] at h ⊢
    rw [settleCourse]
    dsimp only at h ⊢
    cases hround : m.round r with
    | failed e s => simp [hround] at h
    | moved step s =>
      simp only [hround] at h ⊢
      exact hgoOn step (passes_round (.inr ⟨step, hround⟩)) h
    | idle s =>
      simp only [hround] at h ⊢
      have hstarted : m.Passes r (m.roundCourse r) (m.startInvokes s) := by
        simpa using (passes_round (.inl hround)).append (.acts (m.acts_startInvokes s) (.done _))
      split
      · exact ⟨_, by simpa using hstarted, .inl rfl⟩
      · next hsome =>
        rw [if_neg hsome] at h
        cases hagain : m.round (m.startInvokes s) with
        | failed e t => simp [hagain] at h
        | moved step t =>
          simp only [hagain] at h ⊢
          rw [← List.append_assoc]
          exact hgoOn step (hstarted.append (passes_round (.inr ⟨step, hagain⟩))) h
        | idle t =>
          simp only [List.append_nil]
          exact ⟨t, hstarted.append (passes_round (.inl hagain)), .inl rfl⟩

theorem passes_exhausted (r : Run σ) : m.Passes r [] (m.exhausted r) := by
  have hreport : Acts r (r.report .loopLimit ("macrostep exceeded " ++
      toString m.config.maxMicrosteps ++ " microsteps, stopping") none) :=
    .report r (by simp) _ _
  exact .acts hreport ((passes_stop _).append (.publishPending (.done _)))

theorem passes_settle (budget : Nat) {r : Run σ} {summaries : List Summary}
    (h : (m.settle budget r).1 = .ok summaries) :
    m.Passes r (m.settleCourse budget r) (m.settle budget r).2 := by
  obtain ⟨t, ht, hend | hend⟩ := settle_ends budget h
  · rw [hend]
    simpa using ht.append (passes_settled t)
  · rw [hend]
    simpa using ht.append (passes_exhausted t)

theorem passes_complete {step : Step} {s : Run σ} {summaries : List Summary}
    (h : (m.complete (.ok step, s)).1 = .ok summaries) :
    m.Passes s (m.settleCourse m.config.maxMicrosteps s) (m.complete (.ok step, s)).2 := by
  unfold complete at h ⊢
  cases hsettle : m.settle m.config.maxMicrosteps s with
  | mk rest t =>
    cases rest with
    | error e => simp [hsettle, Except.map] at h
    | ok rest =>
      have hpasses := passes_settle m.config.maxMicrosteps (congrArg Prod.fst hsettle)
      rw [hsettle] at hpasses
      simpa only [hsettle, Except.map] using hpasses

/-- A macrostep that succeeds has made its first microstep. -/
theorem ok_of_complete (first : Except StepError Step × Run σ) {summaries : List Summary}
    (h : (m.complete first).1 = .ok summaries) : ∃ step s, first = (.ok step, s) := by
  obtain ⟨result, s⟩ := first
  cases result with
  | error e => simp [complete] at h
  | ok step => exact ⟨step, s, rfl⟩

theorem passes_operate {operation : Operation} {r : Run σ} {summaries : List Summary}
    (h : (m.operate operation r).1 = .ok summaries) :
    m.Passes r (m.operateCourse operation r) (m.operate operation r).2 := by
  cases operation with
  | go =>
    obtain ⟨step, s, hfirst⟩ := ok_of_complete (m.initialStep (m.ready r)) h
    have hcomplete : (m.complete (.ok step, s)).1 = .ok summaries := by
      rw [← hfirst]
      exact h
    have hpasses := passes_complete hcomplete
    rw [← hfirst] at hpasses
    rw [operateCourse, hfirst]
    exact .go hfirst hpasses
  | reset => exact .reset (.done _)
  | stop => exact passes_stop r
  | trigger event =>
    simp only [operate, trigger, operateCourse] at h ⊢
    split
    · exact .done r
    · next hrunning =>
      rw [if_neg hrunning] at h
      split
      · exact passes_stop r
      · next hkind =>
        rw [if_neg hkind] at h
        obtain ⟨step, s, hfirst⟩ := ok_of_complete _ h
        have hmove : m.Makes ⟨.external event, r, step, s⟩ := hfirst
        rw [hfirst] at h ⊢
        exact .moved hmove (by simp) (passes_complete h)

/-- Operations that succeed pass the moves of their course. -/
theorem passes_course {operations : List Operation} {r : Run σ} (h : m.Succeed operations r) :
    m.Passes r (m.course operations r) (m.operateAll operations r) := by
  induction operations generalizing r with
  | nil => exact .done r
  | cons operation rest ih =>
    obtain ⟨⟨summaries, hfirst⟩, hrest⟩ := h
    exact (passes_operate hfirst).append (ih hrest)

/-- Where no step can end in an error, operations succeed. -/
theorem Invariant.succeed {P : Run σ → Prop} (hinv : m.Invariant P (fun _ _ => False))
    (operations : List Operation) {r : Run σ} (hr : P r) : m.Succeed operations r := by
  induction operations generalizing r with
  | nil => trivial
  | cons operation rest ih =>
    obtain ⟨hnext, herror⟩ := hinv.operate operation hr
    refine ⟨?_, ih hnext⟩
    cases hout : (m.operate operation r).1 with
    | ok summaries => exact ⟨summaries, rfl⟩
    | error e => exact (herror e hout).elim (fun _ h => h.elim)

end Interpreter

end Statechart
