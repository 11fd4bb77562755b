import Statechart.Proofs.Courses

/-!
Conditions. Guards of transitions and conditions of conditionals are evaluated in the course of
microsteps, before the configuration changes. They are listed here in the order in which they are
evaluated, each with the run that its state sees then, along the functions that evaluate them; and
an operation depends on how conditions are evaluated at these places and nowhere else.
-/

namespace Statechart

/-- A condition that is evaluated in a run, for the state `owner`. -/
structure Question (σ : Type) where
  run : Run σ
  owner : Nat
  condition : String

/-- A microstep that is begun, whether it fails or not. -/
inductive Attempt (σ : Type) where
  /-- The start of the chart is entered. -/
  | start (r : Run σ)
  | step (event : Option Event) (r : Run σ)

/-- The run in which the microstep begins. -/
def Attempt.before {σ : Type} : Attempt σ → Run σ
  | start r => r
  | step _ r => r

namespace Interpreter

variable {σ : Type} (m : Interpreter σ)

mutual
def actionQuestions (owner : Nat) : Action → Run σ → List (Question σ)
  | .choose branches otherwise, r =>
    branchQuestions owner branches r ++
      match m.performFirst owner branches r with
      | some _ => []
      | none => actionsQuestions owner otherwise r
  | .assign .., _ | .declare .., _ | .log .., _ | .raise _, _ | .send _, _ | .cancel _, _ => []
def actionsQuestions (owner : Nat) : List Action → Run σ → List (Question σ)
  | [], _ => []
  | action :: rest, r =>
    actionQuestions owner action r ++
      match m.perform owner action r with
      | (none, s) => actionsQuestions owner rest s
      | _ => []
/-- Conditions of branches are evaluated up to the first that holds or fails. -/
def branchQuestions (owner : Nat) : List Branch → Run σ → List (Question σ)
  | [], _ => []
  | .mk condition actions :: rest, r =>
    ⟨r, owner, condition⟩ ::
      match m.evaluator.holds (m.viewOf r owner) condition with
      | .error _ => []
      | .ok true => actionsQuestions owner actions r
      | .ok false => branchQuestions owner rest r
end

def blockQuestions (block : Block) (owner : Nat) (actions : List Action) (r : Run σ) :
    List (Question σ) :=
  m.actionsQuestions owner actions (r.note (.began block))

/-- The questions of acts that follow one another. -/
def questionsAlong {α : Type} (ask : α → Run σ → List (Question σ)) (act : Run σ → α → Run σ) :
    List α → Run σ → List (Question σ)
  | [], _ => []
  | x :: rest, r => ask x r ++ questionsAlong ask act rest (act r x)

/-- Runs the content of the default entry of `s`, if the step enters `s` by default. -/
def runInitial (step : Step) (s : Nat) (r : Run σ) : Run σ :=
  match m.chart.defaultTransition? s with
  | some t =>
    if s ∈ step.defaultEntry then m.runBlock (.initial s) s (m.chart.transition t).actions r else r
  | none => r

def initialQuestions (step : Step) (s : Nat) (r : Run σ) : List (Question σ) :=
  match m.chart.defaultTransition? s with
  | some t =>
    if s ∈ step.defaultEntry then
      m.blockQuestions (.initial s) s (m.chart.transition t).actions r
    else []
  | none => []

/-- Runs the content of the default of the history `h` of `s`, if the step takes it. -/
def runHistory (step : Step) (s : Nat) (r : Run σ) (h : Nat) : Run σ :=
  match step.historyDefaults.get? h with
  | some t => m.runBlock (.history h) s (m.chart.transition t).actions r
  | none => r

def historyQuestions (step : Step) (s h : Nat) (r : Run σ) : List (Question σ) :=
  match step.historyDefaults.get? h with
  | some t => m.blockQuestions (.history h) s (m.chart.transition t).actions r
  | none => []

theorem runDefaults_eq (step : Step) (s : Nat) (r : Run σ) :
    m.runDefaults step s r =
      (m.chart.node s).histories.foldl (m.runHistory step s) (m.runInitial step s r) := rfl

def defaultsQuestions (step : Step) (s : Nat) (r : Run σ) : List (Question σ) :=
  m.initialQuestions step s r ++
    questionsAlong (m.historyQuestions step s) (m.runHistory step s) (m.chart.node s).histories
      (m.runInitial step s r)

def leaveQuestions (s : Nat) (r : Run σ) : List (Question σ) :=
  m.blockQuestions (.exit s) s (m.chart.node s).onExit r

def fireQuestions (t : Nat) (r : Run σ) : List (Question σ) :=
  m.blockQuestions (.transition t) (m.chart.transition t).source (m.chart.transition t).actions r

def enterQuestions (step : Step) (s : Nat) (r : Run σ) : List (Question σ) :=
  let r := r.mapSession (·.withdraw s)
  m.blockQuestions (.entry s) s (m.chart.node s).onEntry r ++
    m.defaultsQuestions step s (m.runBlock (.entry s) s (m.chart.node s).onEntry r)

def contentQuestions (step : Step) (r : Run σ) : List (Question σ) :=
  let left := step.exitList.foldl (fun r s => m.leave s r) r
  let fired := step.transitions.foldl (fun r t => m.fire t r) left
  questionsAlong m.leaveQuestions (fun r s => m.leave s r) step.exitList r ++
    questionsAlong m.fireQuestions (fun r t => m.fire t r) step.transitions left ++
    questionsAlong (m.enterQuestions step) (fun r s => m.enter step s r) step.entryList fired

def guardQuestions (t : Nat) (r : Run σ) : List (Question σ) :=
  match (m.chart.transition t).condition with
  | none => []
  | some condition => [⟨r, (m.chart.transition t).source, condition⟩]

/-- A guard that was evaluated before is not evaluated again. -/
def firstQuestions : List Nat → Verdicts → Run σ → List (Question σ)
  | [], _, _ => []
  | t :: rest, verdicts, r =>
    match verdicts.get? t with
    | some true => []
    | some false => firstQuestions rest verdicts r
    | none =>
      m.guardQuestions t r ++
        if (m.guardHolds t r).1 then []
        else firstQuestions rest (verdicts.insert t false) (m.guardHolds t r).2

def enabledQuestions : List Candidate → Verdicts → Run σ → List (Question σ)
  | [], _, _ => []
  | candidate :: rest, verdicts, r =>
    let first := m.firstEnabled candidate.transitions verdicts r
    m.firstQuestions candidate.transitions verdicts r ++
      enabledQuestions rest first.2.1 first.2.2

def planQuestions (plan : Plan) (step : Step) (prepare : Run σ → Run σ) (r : Run σ) :
    List (Question σ) :=
  match m.approve plan r with
  | (some _, _) => []
  | (none, s) => m.contentQuestions (m.planned plan step) (prepare s)

def startQuestions (r : Run σ) : List (Question σ) :=
  if m.chart.initial.isEmpty then []
  else m.planQuestions (m.chart.planStart r.session.histories) (Step.start none .empty) id r

def microstepQuestions (event : Option Event) (r : Run σ) : List (Question σ) :=
  let r := r.mapSession (·.bindEvent event)
  let before := r.session.status
  let candidates := m.chart.candidates (event.map Event.name) before.states
  let selected := m.select candidates before.states r
  let plan := m.chart.plan selected.2.session.histories before selected.1
  m.enabledQuestions candidates ∅ r ++
    if selected.1.isEmpty then []
    else
      m.planQuestions plan
        { Step.start event before with candidates := candidates, transitions := selected.1 }
        (fun r => r.mapSession fun session =>
          { session with
            histories := plan.exitList.foldl
              (fun histories s => histories.recordExit m.chart s before) session.histories })
        selected.2

/-- The conditions that a microstep evaluates. -/
def attemptQuestions : Attempt σ → List (Question σ)
  | .start r => m.startQuestions r
  | .step event r => m.microstepQuestions event r

def roundAttempts (r : Run σ) : List (Attempt σ) :=
  .step none r ::
    match m.microstep none r with
    | (.error _, _) => []
    | (.ok step, s) =>
      if step.hasFired then []
      else
        match takeInternal s with
        | none => []
        | some (e, t) => [.step (some e) t]

def settleAttempts : (budget : Nat) → Run σ → List (Attempt σ)
  | 0, _ => []
  | budget + 1, r =>
    m.roundAttempts r ++
      match m.round r with
      | .failed _ _ => []
      | .moved _ s => settleAttempts budget s
      | .idle s =>
        let s := m.startInvokes s
        if s.session.internal.isEmpty then []
        else
          m.roundAttempts s ++
            match m.round s with
            | .moved _ t => settleAttempts budget t
            | _ => []

/-- The microsteps of a macrostep after its first, which comes out as `first`. -/
def completeAttempts (first : Except StepError Step × Run σ) : List (Attempt σ) :=
  match first with
  | (.error _, _) => []
  | (.ok _, s) => m.settleAttempts m.config.maxMicrosteps s

def operateAttempts : Operation → Run σ → List (Attempt σ)
  | .go, r => .start (m.ready r) :: m.completeAttempts (m.initialStep (m.ready r))
  | .reset, _ => []
  | .stop, _ => []
  | .trigger event, r =>
    if !r.session.running then []
    else if event.kind = .cancel then []
    else .step (some event) r :: m.completeAttempts (m.microstep (some event) r)

namespace Lasts

variable {m} {P R : Run σ → Prop} {Q : StepError → Run σ → Prop}

theorem before_roundAttempts (h : m.Lasts P Q R) {r : Run σ} (hr : P r) :
    ∀ a ∈ m.roundAttempts r, P a.before := by
  have hfirst := h.microstep none hr
  refine List.forall_mem_cons.2 ⟨hr, ?_⟩
  split
  · simp
  · next hok =>
    rw [hok] at hfirst
    split
    · simp
    · split
      · simp
      · next htake => simpa [Attempt.before] using h.take hfirst htake

theorem before_settleAttempts (h : m.Lasts P Q R) (budget : Nat) {r : Run σ} (hr : P r) :
    ∀ a ∈ m.settleAttempts budget r, P a.before := by
  induction budget generalizing r with
  | zero => simp [settleAttempts]
  | succ budget ih =>
    have hround := h.round hr
    refine List.forall_mem_append.2 ⟨h.before_roundAttempts hr, ?_⟩
    split
    · simp
    · next hmoved =>
      rw [hmoved] at hround
      exact ih hround
    · next s hidle =>
      rw [hidle] at hround
      have hstarted : P (m.startInvokes s) := h.startInvokes hround
      have hagain := h.round hstarted
      dsimp only
      split
      · simp
      · refine List.forall_mem_append.2 ⟨h.before_roundAttempts hstarted, ?_⟩
        split
        · next hmoved =>
          rw [hmoved] at hagain
          exact ih hagain
        · simp

theorem before_completeAttempts (h : m.Lasts P Q R) {first : Except StepError Step × Run σ}
    (hfirst : Leaves P Q first) : ∀ a ∈ m.completeAttempts first, P a.before := by
  obtain ⟨result, r⟩ := first
  cases result with
  | error e => simp [completeAttempts]
  | ok step => exact h.before_settleAttempts _ hfirst

/-- What holds between the steps of a macrostep holds whenever an operation begins a microstep,
unless it has just cleared the session. -/
theorem before_operateAttempts (h : m.Lasts P Q R) (operation : Operation) {r : Run σ}
    (hr : R r) : ∀ a ∈ m.operateAttempts operation r, a.before = m.ready r ∨ P a.before := by
  cases operation with
  | go =>
    exact List.forall_mem_cons.2
      ⟨.inl rfl, fun a ha => .inr (h.before_completeAttempts (h.start hr) a ha)⟩
  | reset => simp [operateAttempts]
  | stop => simp [operateAttempts]
  | trigger event =>
    simp only [operateAttempts]
    split
    · simp
    · next hrunning =>
      split
      · simp
      · have hbegins : P r := h.running hr (by simpa using hrunning)
        exact List.forall_mem_cons.2 ⟨.inr hbegins,
          fun a ha => .inr (h.before_completeAttempts (h.microstep (some event) hbegins) a ha)⟩

end Lasts

/-- The interpreter with conditions evaluated by `holds`. -/
def answering (holds : View → String → Except EvaluationError Bool) : Interpreter σ :=
  { m with evaluator := { m.evaluator with holds := holds } }

/-- The questions are answered by `holds` as they are by the evaluator. -/
def Agrees (holds : View → String → Except EvaluationError Bool) (questions : List (Question σ)) :
    Prop :=
  ∀ q ∈ questions,
    holds (m.viewOf q.run q.owner) q.condition =
      m.evaluator.holds (m.viewOf q.run q.owner) q.condition

section Answering

variable {m} {holds : View → String → Except EvaluationError Bool}

@[simp] theorem chart_answering : (m.answering holds).chart = m.chart := rfl

theorem agrees_append {xs ys : List (Question σ)} :
    m.Agrees holds (xs ++ ys) ↔ m.Agrees holds xs ∧ m.Agrees holds ys :=
  List.forall_mem_append

theorem agrees_cons {q : Question σ} {rest : List (Question σ)} :
    m.Agrees holds (q :: rest) ↔
      holds (m.viewOf q.run q.owner) q.condition =
        m.evaluator.holds (m.viewOf q.run q.owner) q.condition ∧ m.Agrees holds rest :=
  List.forall_mem_cons

mutual

theorem perform_answering {owner : Nat} {action : Action} {r : Run σ}
    (h : m.Agrees holds (m.actionQuestions owner action r)) :
    (m.answering holds).perform owner action r = m.perform owner action r := by
  match action with
  | .assign _ _ | .declare _ _ | .log _ _ | .raise _ | .send _ | .cancel _ =>
    simp only [perform] <;> rfl
  | .choose branches otherwise =>
    rw [actionQuestions, agrees_append] at h
    obtain ⟨hbranches, hotherwise⟩ := h
    simp only [perform, performFirst_answering hbranches]
    cases hfirst : m.performFirst owner branches r with
    | some outcome => rfl
    | none =>
      rw [hfirst] at hotherwise
      exact performAll_answering hotherwise

theorem performAll_answering {owner : Nat} {actions : List Action} {r : Run σ}
    (h : m.Agrees holds (m.actionsQuestions owner actions r)) :
    (m.answering holds).performAll owner actions r = m.performAll owner actions r := by
  match actions with
  | [] => rfl
  | action :: rest =>
    rw [actionsQuestions, agrees_append] at h
    obtain ⟨haction, hrest⟩ := h
    simp only [performAll, perform_answering haction]
    cases hout : m.perform owner action r with
    | mk failure s =>
      cases failure with
      | some e => rfl
      | none =>
        rw [hout] at hrest
        exact performAll_answering hrest

theorem performFirst_answering {owner : Nat} {branches : List Branch} {r : Run σ}
    (h : m.Agrees holds (m.branchQuestions owner branches r)) :
    (m.answering holds).performFirst owner branches r = m.performFirst owner branches r := by
  match branches with
  | [] => rfl
  | .mk condition actions :: rest =>
    rw [branchQuestions, agrees_cons] at h
    obtain ⟨hcondition, hbranch⟩ := h
    have hholds : (m.answering holds).evaluator.holds ((m.answering holds).viewOf r owner)
        condition = m.evaluator.holds (m.viewOf r owner) condition := hcondition
    simp only [performFirst, hholds]
    cases hverdict : m.evaluator.holds (m.viewOf r owner) condition with
    | error e => rfl
    | ok verdict =>
      rw [hverdict] at hbranch
      cases verdict with
      | true => exact congrArg some (performAll_answering hbranch)
      | false => exact performFirst_answering hbranch

end

theorem runBlock_answering {block : Block} {owner : Nat} {actions : List Action} {r : Run σ}
    (h : m.Agrees holds (m.blockQuestions block owner actions r)) :
    (m.answering holds).runBlock block owner actions r = m.runBlock block owner actions r := by
  unfold runBlock runActions
  rw [performAll_answering h]
  rfl

theorem foldl_answering {α : Type} {ask : α → Run σ → List (Question σ)}
    {act act' : Run σ → α → Run σ}
    (hact : ∀ {x r}, m.Agrees holds (ask x r) → act' r x = act r x) {xs : List α} {r : Run σ}
    (h : m.Agrees holds (questionsAlong ask act xs r)) : xs.foldl act' r = xs.foldl act r := by
  induction xs generalizing r with
  | nil => rfl
  | cons x rest ih =>
    rw [questionsAlong, agrees_append] at h
    obtain ⟨hx, hrest⟩ := h
    rw [List.foldl_cons, List.foldl_cons, hact hx]
    exact ih hrest

theorem leave_answering {s : Nat} {r : Run σ} (h : m.Agrees holds (m.leaveQuestions s r)) :
    (m.answering holds).leave s r = m.leave s r := by
  unfold leave
  rw [chart_answering, runBlock_answering h]
  rfl

theorem fire_answering {t : Nat} {r : Run σ} (h : m.Agrees holds (m.fireQuestions t r)) :
    (m.answering holds).fire t r = m.fire t r :=
  runBlock_answering h

theorem runInitial_answering {step : Step} {s : Nat} {r : Run σ}
    (h : m.Agrees holds (m.initialQuestions step s r)) :
    (m.answering holds).runInitial step s r = m.runInitial step s r := by
  unfold initialQuestions at h
  unfold runInitial
  rw [chart_answering]
  cases hdefault : m.chart.defaultTransition? s with
  | none => rfl
  | some t =>
    simp only [hdefault] at h ⊢
    split
    · next hentered =>
      rw [if_pos hentered] at h
      exact runBlock_answering h
    · rfl

theorem runHistory_answering {step : Step} {s x : Nat} {r : Run σ}
    (h : m.Agrees holds (m.historyQuestions step s x r)) :
    (m.answering holds).runHistory step s r x = m.runHistory step s r x := by
  unfold historyQuestions at h
  unfold runHistory
  rw [chart_answering]
  cases hdefault : step.historyDefaults.get? x with
  | none => rfl
  | some t =>
    rw [hdefault] at h
    exact runBlock_answering h

theorem runDefaults_answering {step : Step} {s : Nat} {r : Run σ}
    (h : m.Agrees holds (m.defaultsQuestions step s r)) :
    (m.answering holds).runDefaults step s r = m.runDefaults step s r := by
  obtain ⟨hinitial, hhistories⟩ := agrees_append.1 h
  rw [runDefaults_eq, runDefaults_eq, chart_answering, runInitial_answering hinitial]
  exact foldl_answering runHistory_answering hhistories

theorem enter_answering {step : Step} {s : Nat} {r : Run σ}
    (h : m.Agrees holds (m.enterQuestions step s r)) :
    (m.answering holds).enter step s r = m.enter step s r := by
  obtain ⟨hentry, hdefaults⟩ := agrees_append.1 h
  unfold enter
  dsimp only
  rw [chart_answering, runBlock_answering hentry, runDefaults_answering hdefaults]
  rfl

theorem carryOut_answering {step : Step} {r : Run σ}
    (h : m.Agrees holds (m.contentQuestions step r)) :
    (m.answering holds).carryOut step r = m.carryOut step r := by
  obtain ⟨hfirst, hentered⟩ := agrees_append.1 h
  obtain ⟨hleft, hfired⟩ := agrees_append.1 hfirst
  have hcontent : (m.answering holds).runContent step r = m.runContent step r := by
    unfold runContent
    dsimp only
    rw [foldl_answering leave_answering hleft, foldl_answering fire_answering hfired]
    exact foldl_answering enter_answering hentered
  unfold carryOut
  rw [hcontent]
  rfl

theorem guardHolds_answering {t : Nat} {r : Run σ} (h : m.Agrees holds (m.guardQuestions t r)) :
    (m.answering holds).guardHolds t r = m.guardHolds t r := by
  unfold guardQuestions at h
  unfold guardHolds
  rw [chart_answering]
  cases hcondition : (m.chart.transition t).condition with
  | none => simp only [hcondition]
  | some condition =>
    rw [hcondition] at h
    have hholds : (m.answering holds).evaluator.holds
        ((m.answering holds).viewOf r (m.chart.transition t).source) condition =
          m.evaluator.holds (m.viewOf r (m.chart.transition t).source) condition :=
      h ⟨r, (m.chart.transition t).source, condition⟩ (by simp)
    simp only [hcondition, hholds]

theorem firstEnabled_answering {transitions : List Nat} {verdicts : Verdicts} {r : Run σ}
    (h : m.Agrees holds (m.firstQuestions transitions verdicts r)) :
    (m.answering holds).firstEnabled transitions verdicts r =
      m.firstEnabled transitions verdicts r := by
  induction transitions generalizing verdicts r with
  | nil => rfl
  | cons t rest ih =>
    unfold firstQuestions at h
    unfold firstEnabled
    cases hverdict : verdicts.get? t with
    | some verdict =>
      rw [hverdict] at h
      cases verdict with
      | true => rfl
      | false => exact ih h
    | none =>
      rw [hverdict] at h
      obtain ⟨hguard, hrest⟩ := agrees_append.1 h
      simp only [guardHolds_answering hguard]
      cases hholds : (m.guardHolds t r).1 with
      | true => rfl
      | false =>
        rw [hholds] at hrest
        exact ih hrest

theorem enabled_answering {candidates : List Candidate} {verdicts : Verdicts} {r : Run σ}
    (h : m.Agrees holds (m.enabledQuestions candidates verdicts r)) :
    (m.answering holds).enabled candidates verdicts r = m.enabled candidates verdicts r := by
  induction candidates generalizing verdicts r with
  | nil => rfl
  | cons candidate rest ih =>
    obtain ⟨hfirst, hrest⟩ := agrees_append.1 h
    unfold enabled
    rw [firstEnabled_answering hfirst]
    dsimp only
    rw [ih hrest]

theorem dropConflicts_answering (active : StateSet) (kept : List (Nat × StateSet))
    (transitions : List Nat) (r : Run σ) :
    (m.answering holds).dropConflicts active kept transitions r =
      m.dropConflicts active kept transitions r := by
  induction transitions generalizing kept r with
  | nil => rfl
  | cons t rest ih =>
    simp only [dropConflicts, ih]
    rfl

theorem select_answering {candidates : List Candidate} {active : StateSet} {r : Run σ}
    (h : m.Agrees holds (m.enabledQuestions candidates ∅ r)) :
    (m.answering holds).select candidates active r = m.select candidates active r := by
  unfold select
  rw [enabled_answering h]
  exact dropConflicts_answering active [] _ _

theorem initialStep_answering {r : Run σ} (h : m.Agrees holds (m.startQuestions r)) :
    (m.answering holds).initialStep r = m.initialStep r := by
  unfold startQuestions planQuestions at h
  unfold initialStep
  rw [chart_answering, show (m.answering holds).approve = m.approve from rfl]
  dsimp only
  split
  · refine carryOut_answering ?_
    intro q hq
    cases hq
  · next hsome =>
    rw [if_neg hsome] at h
    split
    · rfl
    · next happrove =>
      rw [happrove] at h
      exact carryOut_answering h

theorem microstep_answering {event : Option Event} {r : Run σ}
    (h : m.Agrees holds (m.microstepQuestions event r)) :
    (m.answering holds).microstep event r = m.microstep event r := by
  obtain ⟨henabled, hcontent⟩ := agrees_append.1 h
  unfold planQuestions at hcontent
  unfold microstep
  rw [chart_answering]
  dsimp only
  rw [select_answering henabled]
  split
  · rfl
  · next hsome =>
    rw [if_neg hsome] at hcontent
    rw [show (m.answering holds).approve = m.approve from rfl]
    split
    · rfl
    · next happrove =>
      rw [happrove] at hcontent
      exact carryOut_answering hcontent

theorem round_answering {r : Run σ}
    (h : ∀ a ∈ m.roundAttempts r, m.Agrees holds (m.attemptQuestions a)) :
    (m.answering holds).round r = m.round r := by
  obtain ⟨hfirst, hrest⟩ := List.forall_mem_cons.1 h
  unfold round
  rw [microstep_answering hfirst]
  split
  · rfl
  · next hok =>
    rw [hok] at hrest
    split
    · rfl
    · next hidle =>
      simp only [hidle] at hrest
      split
      · rfl
      · next htake =>
        rw [htake] at hrest
        have hsecond := hrest _ (List.mem_singleton.2 rfl)
        rw [microstep_answering hsecond]

theorem startInvokes_answering : (m.answering holds).startInvokes = m.startInvokes := rfl

theorem settled_answering : (m.answering holds).settled = m.settled := rfl

theorem exhausted_answering : (m.answering holds).exhausted = m.exhausted := rfl

theorem summaryOf_answering : (m.answering holds).summaryOf = m.summaryOf := rfl

theorem pursue_answering {budget : Nat} {whenIdle whenIdle' : Run σ → Outcome × Run σ}
    {out : Round σ}
    (hmoved : ∀ step s, out = .moved step s →
      (m.answering holds).settle budget s = m.settle budget s)
    (hidle : ∀ s, out = .idle s → whenIdle' s = whenIdle s) :
    (m.answering holds).pursue budget whenIdle' out = m.pursue budget whenIdle out := by
  cases out with
  | failed e s => rfl
  | moved step s => rw [pursue, pursue, hmoved step s rfl, summaryOf_answering]
  | idle s => exact hidle s rfl

theorem settle_answering (budget : Nat) {r : Run σ}
    (h : ∀ a ∈ m.settleAttempts budget r, m.Agrees holds (m.attemptQuestions a)) :
    (m.answering holds).settle budget r = m.settle budget r := by
  induction budget generalizing r with
  | zero => rw [settle, settle, exhausted_answering]
  | succ budget ih =>
    obtain ⟨hround, hrest⟩ := List.forall_mem_append.1 h
    rw [settle_succ, settle_succ, round_answering hround]
    refine pursue_answering ?_ ?_
    · intro step s hout
      rw [hout] at hrest
      exact ih hrest
    · intro s hout
      rw [hout] at hrest
      unfold serve
      dsimp only at hrest ⊢
      rw [startInvokes_answering, settled_answering]
      split
      · rfl
      · next hsome =>
        rw [if_neg hsome] at hrest
        obtain ⟨hagain, hrest⟩ := List.forall_mem_append.1 hrest
        rw [round_answering hagain]
        refine pursue_answering ?_ (fun _ _ => rfl)
        intro step t hout
        rw [hout] at hrest
        exact ih hrest

theorem complete_answering {first : Except StepError Step × Run σ}
    (h : ∀ a ∈ m.completeAttempts first, m.Agrees holds (m.attemptQuestions a)) :
    (m.answering holds).complete first = m.complete first := by
  obtain ⟨result, r⟩ := first
  cases result with
  | error e => rfl
  | ok step =>
    have hsettle : (m.answering holds).settle (m.answering holds).config.maxMicrosteps r =
      m.settle m.config.maxMicrosteps r := settle_answering _ h
    rw [complete_ok, complete_ok, hsettle]
    rfl

variable (m holds) in
/-- An operation depends on how conditions are evaluated only where its microsteps ask. -/
theorem operate_answering (operation : Operation) (r : Run σ)
    (h : ∀ a ∈ m.operateAttempts operation r, m.Agrees holds (m.attemptQuestions a)) :
    (m.answering holds).operate operation r = m.operate operation r := by
  cases operation with
  | go =>
    obtain ⟨hfirst, hrest⟩ := List.forall_mem_cons.1 h
    have hready : (m.answering holds).ready r = m.ready r := rfl
    change (m.answering holds).complete ((m.answering holds).initialStep
      ((m.answering holds).ready r)) = m.complete (m.initialStep (m.ready r))
    rw [hready, initialStep_answering hfirst]
    exact complete_answering hrest
  | reset => rfl
  | stop => rfl
  | trigger event =>
    simp only [operate, trigger, operateAttempts] at h ⊢
    split
    · rfl
    · next hrunning =>
      rw [if_neg hrunning] at h
      split
      · rfl
      · next hkind =>
        rw [if_neg hkind] at h
        obtain ⟨hfirst, hrest⟩ := List.forall_mem_cons.1 h
        rw [microstep_answering hfirst]
        exact complete_answering hrest

end Answering

end Interpreter

end Statechart
