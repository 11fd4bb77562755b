import Statechart.Proofs.Operations

/-!
Runs in different worlds. What an interpreter does depends on the state of its host only
through the answers that it gets, and neither on the external events that wait nor on what is
in the journal already. So a run can be carried over into another world in which the host
answers alike, and whatever is done there is what would have been done here, carried over.
-/

namespace Statechart

variable {σ τ : Type}

/-- `f` takes the states of the host `h` to those of `k`, and `k` answers as `h` does. -/
structure Host.Maps (f : σ → τ) (h : Host σ) (k : Host τ) : Prop where
  send : ∀ request w, k.send request (f w) = ((h.send request w).1, f (h.send request w).2)
  cancelSend : ∀ sendId w, k.cancelSend sendId (f w) =
    ((h.cancelSend sendId w).1, f (h.cancelSend sendId w).2)
  startInvoke : ∀ request w, k.startInvoke request (f w) =
    ((h.startInvoke request w).1, f (h.startInvoke request w).2)
  cancelInvoke : ∀ invokeId w, k.cancelInvoke invokeId (f w) =
    ((h.cancelInvoke invokeId w).1, f (h.cancelInvoke invokeId w).2)

/-- How a run is carried over: where its world goes, and the queue and the journal that are
there before. -/
structure Passage (σ τ : Type) where
  world : σ → τ
  queue : List Event
  journal : List Entry

namespace Run

def carry (p : Passage σ τ) (r : Run σ) : Run τ :=
  ⟨r.session, p.queue ++ r.queue, p.world r.world, r.journal ++ p.journal⟩

variable (p : Passage σ τ) (r : Run σ)

@[simp] theorem session_carry : (r.carry p).session = r.session := rfl

@[simp] theorem world_carry : (r.carry p).world = p.world r.world := rfl

@[simp] theorem note_carry (e : Entry) : (r.carry p).note e = (r.note e).carry p := rfl

@[simp] theorem report_carry (kind : ReportKind) (message : String) (related : Option String) :
    (r.carry p).report kind message related = (r.report kind message related).carry p := rfl

@[simp] theorem mapSession_carry (f : Session → Session) :
    (r.carry p).mapSession f = (r.mapSession f).carry p := rfl

@[simp] theorem raise_carry (e : Event) : (r.carry p).raise e = (r.raise e).carry p := rfl

@[simp] theorem hear_carry {ε : Type} (reply : Reply ε) (w : σ) :
    (r.carry p).hear (reply, p.world w) = (r.hear (reply, w)).carry p := by
  simp [hear, carry]

@[simp] theorem keepInvoke_carry (s : Nat) (invokeId : String) :
    (r.carry p).keepInvoke s invokeId = (r.keepInvoke s invokeId).carry p := rfl

/-- Steps of a fold, carried over one after the other. -/
theorem foldl_carry {α : Type} {f : Run τ → α → Run τ} {g : Run σ → α → Run σ} {xs : List α}
    (h : ∀ r, ∀ x ∈ xs, f (r.carry p) x = (g r x).carry p) :
    xs.foldl f (r.carry p) = (xs.foldl g r).carry p := by
  induction xs generalizing r with
  | nil => rfl
  | cons x rest ih =>
    rw [List.foldl_cons, List.foldl_cons, h r x (by simp)]
    exact ih _ (fun r y hy => h r y (List.mem_cons_of_mem x hy))

end Run

namespace Interpreter

/-- The interpreter with another host. -/
def on (m : Interpreter σ) (k : Host τ) : Interpreter τ :=
  ⟨m.chart, m.evaluator, k, m.config⟩

variable (m : Interpreter σ) {k : Host τ} {p : Passage σ τ}

@[simp] theorem chart_on : (m.on k).chart = m.chart := rfl

@[simp] theorem evaluator_on : (m.on k).evaluator = m.evaluator := rfl

@[simp] theorem host_on : (m.on k).host = k := rfl

@[simp] theorem config_on : (m.on k).config = m.config := rfl

@[simp] theorem summaryOf_on (step : Step) : (m.on k).summaryOf step = m.summaryOf step := rfl

@[simp] theorem viewOf_carry (r : Run σ) (s : Nat) :
    (m.on k).viewOf (r.carry p) s = m.viewOf r s := rfl

@[simp] theorem writeFrom_carry (s : Nat) (r : Run σ) (f : Scopes → Nat → Scopes) :
    (m.on k).writeFrom s (r.carry p) f = (m.writeFrom s r f).carry p := rfl

theorem assign_carry (owner : Nat) (location expr : String) (r : Run σ) :
    (m.on k).assign owner location expr (r.carry p) =
      ((m.assign owner location expr r).1, (m.assign owner location expr r).2.carry p) := by
  cases hsystem : isSystemVariable location with
  | true => simp [assign, hsystem]
  | false =>
    cases hhas : (m.viewOf r owner).has location with
    | false => simp [assign, hsystem, hhas]
    | true => cases heval : m.evaluator.eval (m.viewOf r owner) expr <;>
        simp [assign, hsystem, hhas, heval]

theorem declare_carry (owner : Nat) (name : String) (expr : Option String) (r : Run σ) :
    (m.on k).declare owner name expr (r.carry p) =
      ((m.declare owner name expr r).1, (m.declare owner name expr r).2.carry p) := by
  cases hsystem : isSystemVariable name with
  | true => simp [declare, hsystem]
  | false =>
    cases expr with
    | none => simp [declare, hsystem]
    | some expr => cases heval : m.evaluator.eval (m.viewOf r owner) expr <;>
        simp [declare, hsystem, heval]

theorem log_carry (owner : Nat) (label expr : Option String) (r : Run σ) :
    (m.on k).log owner label expr (r.carry p) =
      ((m.log owner label expr r).1, (m.log owner label expr r).2.carry p) := by
  cases expr with
  | none => simp [log]
  | some expr => cases heval : m.evaluator.eval (m.viewOf r owner) expr <;> simp [log, heval]

variable {m}

theorem dispatch_carry (h : Host.Maps p.world m.host k) (request : SendRequest) (r : Run σ) :
    (m.on k).dispatch request (r.carry p) =
      ((m.dispatch request r).1, (m.dispatch request r).2.carry p) := by
  simp [dispatch, h.send]

theorem send_carry (h : Host.Maps p.world m.host k) (owner : Nat) (s : Send) (r : Run σ) :
    (m.on k).send owner s (r.carry p) =
      ((m.send owner s r).1, (m.send owner s r).2.carry p) := by
  cases hname : m.evaluator.eventName (m.viewOf r owner) s with
  | error e => simp [send, hname]
  | ok event =>
    cases hdata : m.evaluator.payload (m.viewOf r owner) s with
    | error e => simp [send, hname, hdata]
    | ok data =>
      by_cases htarget : s.target = some Send.internalTarget
      · cases hid : s.id <;> simp [send, hname, hdata, htarget, hid]
      · cases hid : s.id <;> simp [send, hname, hdata, htarget, hid, dispatch_carry h]

theorem cancelSend_carry (h : Host.Maps p.world m.host k) (sendId : String) (r : Run σ) :
    (m.on k).cancelSend sendId (r.carry p) = (m.cancelSend sendId r).carry p := by
  simp [cancelSend, h.cancelSend]

mutual

theorem perform_carry (h : Host.Maps p.world m.host k) (owner : Nat) (action : Action)
    (r : Run σ) : (m.on k).perform owner action (r.carry p) =
      ((m.perform owner action r).1, (m.perform owner action r).2.carry p) := by
  match action with
  | .assign location expr => exact m.assign_carry owner location expr r
  | .declare name expr => exact m.declare_carry owner name expr r
  | .log label expr => exact m.log_carry owner label expr r
  | .raise event => simp [perform]
  | .send s => exact send_carry h owner s r
  | .cancel sendId => simp [perform, cancelSend_carry h]
  | .choose branches otherwise =>
    have hfirst := performFirst_carry h owner branches r
    have hotherwise := performAll_carry h owner otherwise r
    cases hbranch : m.performFirst owner branches r <;>
      simp [perform, hfirst, hotherwise, hbranch]

theorem performAll_carry (h : Host.Maps p.world m.host k) (owner : Nat) (actions : List Action)
    (r : Run σ) : (m.on k).performAll owner actions (r.carry p) =
      ((m.performAll owner actions r).1, (m.performAll owner actions r).2.carry p) := by
  match actions with
  | [] => rfl
  | action :: rest =>
    have hfirst := perform_carry h owner action r
    obtain ⟨failure, s, hs⟩ : ∃ failure s, m.perform owner action r = (failure, s) := ⟨_, _, rfl⟩
    cases failure with
    | none =>
      have hrest := performAll_carry h owner rest s
      simp [performAll, hfirst, hs, hrest]
    | some e => simp [performAll, hfirst, hs]

theorem performFirst_carry (h : Host.Maps p.world m.host k) (owner : Nat)
    (branches : List Branch) (r : Run σ) : (m.on k).performFirst owner branches (r.carry p) =
      (m.performFirst owner branches r).map (fun out => (out.1, out.2.carry p)) := by
  match branches with
  | [] => rfl
  | .mk condition actions :: rest =>
    have hall := performAll_carry h owner actions r
    have hrest := performFirst_carry h owner rest r
    cases hholds : m.evaluator.holds (m.viewOf r owner) condition with
    | error e => simp [performFirst, hholds]
    | ok verdict => cases verdict <;> simp [performFirst, hholds, hall, hrest]

end

theorem runActions_carry (h : Host.Maps p.world m.host k) (owner : Nat) (actions : List Action)
    (r : Run σ) :
    (m.on k).runActions owner actions (r.carry p) = (m.runActions owner actions r).carry p := by
  have hall := performAll_carry h owner actions r
  obtain ⟨failure, s, hs⟩ : ∃ failure s, m.performAll owner actions r = (failure, s) :=
    ⟨_, _, rfl⟩
  cases failure <;> simp [runActions, hall, hs]

theorem runBlock_carry (h : Host.Maps p.world m.host k) (block : Block) (owner : Nat)
    (actions : List Action) (r : Run σ) :
    (m.on k).runBlock block owner actions (r.carry p) =
      (m.runBlock block owner actions r).carry p := by
  simp [runBlock, runActions_carry h]

theorem declareAll_carry (m : Interpreter σ) (owner : Option Nat) (data : List Data) (r : Run σ) :
    (m.on k).declareAll owner data (r.carry p) = (m.declareAll owner data r).carry p := by
  apply r.foldl_carry p
  intro r d _
  cases hexpr : d.expr with
  | none => simp
  | some expr =>
    simp only [Run.session_carry, chart_on, evaluator_on]
    split
    · simp
    · simp

theorem initializeData_carry (m : Interpreter σ) (r : Run σ) :
    (m.on k).initializeData (r.carry p) = (m.initializeData r).carry p := by
  unfold initializeData
  rw [chart_on, m.declareAll_carry]
  apply (m.declareAll none m.chart.data r).foldl_carry p
  intro r s _
  exact m.declareAll_carry _ _ r

theorem invokeParams_carry (m : Interpreter σ) (s : Nat) (params : List Param) (r : Run σ) :
    (m.on k).invokeParams s params (r.carry p) =
      ((m.invokeParams s params r).1, (m.invokeParams s params r).2.carry p) := by
  unfold invokeParams
  generalize (∅ : SortedMap String Json.Value) = known
  induction params generalizing known r with
  | nil => rfl
  | cons q rest ih =>
    cases hvalue : m.evaluator.paramValue (m.viewOf r s) q <;> simp [hvalue] <;> exact ih _ _

theorem startInvoke_carry (h : Host.Maps p.world m.host k) (s : Nat) (i : Invoke) (r : Run σ) :
    (m.on k).startInvoke s i (r.carry p) = (m.startInvoke s i r).carry p := by
  have hparams := fun r : Run σ => m.invokeParams_carry (k := k) (p := p) s i.params r
  unfold startInvoke
  cases hid : i.id with
  | some id =>
    simp only [hparams, host_on, chart_on, Run.world_carry, h.startInvoke, Run.hear_carry,
      Run.note_carry]
    split
    · rfl
    · rfl
  | none =>
    simp only [hparams, host_on, chart_on, Run.world_carry, h.startInvoke, Run.hear_carry,
      Run.note_carry, Run.mapSession_carry, Run.session_carry]
    split
    · rfl
    · rfl

theorem startInvokes_carry (h : Host.Maps p.world m.host k) (r : Run σ) :
    (m.on k).startInvokes (r.carry p) = (m.startInvokes r).carry p := by
  unfold startInvokes
  dsimp only
  rw [Run.mapSession_carry, Run.session_carry]
  apply Run.foldl_carry
  intro r s _
  rw [Run.session_carry]
  split
  · apply Run.foldl_carry
    intro r i _
    exact startInvoke_carry h s i r
  · rfl

theorem cancelInvoke_carry (h : Host.Maps p.world m.host k) (s : Nat) (invokeId : String)
    (r : Run σ) :
    (m.on k).cancelInvoke s invokeId (r.carry p) = (m.cancelInvoke s invokeId r).carry p := by
  unfold cancelInvoke
  simp only [host_on, Run.world_carry, h.cancelInvoke, Run.hear_carry, Run.note_carry]
  split
  · rfl
  · rfl

theorem cancelInvokes_carry (h : Host.Maps p.world m.host k) (s : Nat) (r : Run σ) :
    (m.on k).cancelInvokes s (r.carry p) = (m.cancelInvokes s r).carry p := by
  unfold cancelInvokes
  rw [Run.session_carry]
  split
  · rfl
  · dsimp only
    rw [Run.mapSession_carry]
    apply Run.foldl_carry
    intro r invokeId _
    exact cancelInvoke_carry h s invokeId r

theorem cancelAllInvokes_carry (h : Host.Maps p.world m.host k) (r : Run σ) :
    (m.on k).cancelAllInvokes (r.carry p) = (m.cancelAllInvokes r).carry p := by
  apply Run.foldl_carry
  intro r s _
  exact cancelInvokes_carry h s r

theorem raiseDone_carry (m : Interpreter σ) (s : Nat) (r : Run σ) :
    (m.on k).raiseDone s (r.carry p) = (m.raiseDone s r).carry p := rfl

theorem completeParallel_carry (m : Interpreter σ) (q : Nat) (r : Run σ) :
    (m.on k).completeParallel q (r.carry p) = (m.completeParallel q r).carry p := by
  unfold completeParallel
  rw [chart_on, Run.session_carry]
  split
  · rfl
  · rfl

theorem completeAround_carry (m : Interpreter σ) (s : Nat) (r : Run σ) :
    (m.on k).completeAround s (r.carry p) = (m.completeAround s r).carry p := by
  unfold completeAround
  simp only [chart_on, Run.mapSession_carry, completeParallel_carry, raiseDone_carry]
  cases m.chart.parent s with
  | none => rfl
  | some q =>
    dsimp only
    split
    · rfl
    · cases m.chart.parent q with
      | none => rfl
      | some g =>
        dsimp only
        split
        · rfl
        · rfl

theorem reopenAround_carry (m : Interpreter σ) (s : Nat) (r : Run σ) :
    (m.on k).reopenAround s (r.carry p) = (m.reopenAround s r).carry p := by
  unfold reopenAround
  simp only [chart_on, Run.mapSession_carry]
  cases m.chart.parent s with
  | none => rfl
  | some q =>
    dsimp only
    cases m.chart.parent q with
    | none => rfl
    | some g => exact (apply_ite (Run.carry p) _ _ _).symm

theorem guardHolds_carry (m : Interpreter σ) (t : Nat) (r : Run σ) :
    (m.on k).guardHolds t (r.carry p) = ((m.guardHolds t r).1, (m.guardHolds t r).2.carry p) := by
  unfold guardHolds
  simp only [chart_on, evaluator_on, viewOf_carry, Run.note_carry, Run.report_carry]
  cases (m.chart.transition t).condition with
  | none => rfl
  | some condition =>
    dsimp only
    cases m.evaluator.holds (m.viewOf r (m.chart.transition t).source) condition <;> rfl

theorem firstEnabled_carry (m : Interpreter σ) (transitions : List Nat) (verdicts : Verdicts)
    (r : Run σ) :
    (m.on k).firstEnabled transitions verdicts (r.carry p) =
      ((m.firstEnabled transitions verdicts r).1, (m.firstEnabled transitions verdicts r).2.1,
        (m.firstEnabled transitions verdicts r).2.2.carry p) := by
  induction transitions generalizing verdicts r with
  | nil => rfl
  | cons t rest ih =>
    unfold firstEnabled
    rw [guardHolds_carry]
    cases verdicts.get? t with
    | some verdict =>
      cases verdict with
      | true => rfl
      | false => exact ih verdicts r
    | none =>
      dsimp only
      cases (m.guardHolds t r).1 with
      | true => rfl
      | false => exact ih _ _

theorem enabled_carry (m : Interpreter σ) (candidates : List Candidate) (verdicts : Verdicts)
    (r : Run σ) :
    (m.on k).enabled candidates verdicts (r.carry p) =
      ((m.enabled candidates verdicts r).1, (m.enabled candidates verdicts r).2.carry p) := by
  induction candidates generalizing verdicts r with
  | nil => rfl
  | cons candidate rest ih =>
    unfold enabled
    simp only [firstEnabled_carry, ih]
    cases (m.firstEnabled candidate.transitions verdicts r).1 <;> rfl

theorem dropConflicts_carry (m : Interpreter σ) (states : StateSet)
    (kept : List (Nat × StateSet)) (transitions : List Nat) (r : Run σ) :
    (m.on k).dropConflicts states kept transitions (r.carry p) =
      ((m.dropConflicts states kept transitions r).1,
        (m.dropConflicts states kept transitions r).2.carry p) := by
  induction transitions generalizing kept r with
  | nil => rfl
  | cons t rest ih =>
    unfold dropConflicts
    dsimp only
    rw [chart_on]
    split
    · exact ih kept (m.reportDropped t _ r)
    · exact ih _ r

theorem select_carry (m : Interpreter σ) (candidates : List Candidate) (states : StateSet)
    (r : Run σ) :
    (m.on k).select candidates states (r.carry p) =
      ((m.select candidates states r).1, (m.select candidates states r).2.carry p) := by
  unfold select
  rw [enabled_carry]
  exact m.dropConflicts_carry states [] _ _

theorem checkLegality_carry (m : Interpreter σ) (next : StateSet) (r : Run σ) :
    (m.on k).checkLegality next (r.carry p) =
      ((m.checkLegality next r).1, (m.checkLegality next r).2.carry p) := by
  have hreports : ∀ violations : List Violation,
      violations.foldl (fun r v => r.note (.report v.report)) (r.carry p) =
        (violations.foldl (fun r v => r.note (.report v.report)) r).carry p :=
    fun violations => r.foldl_carry p (fun r v _ => rfl)
  unfold checkLegality
  rw [config_on, chart_on]
  split
  · rfl
  · split
    · rfl
    · dsimp only
      rw [hreports]
      cases m.config.legality <;> rfl

theorem approve_carry (m : Interpreter σ) (plan : Plan) (r : Run σ) :
    (m.on k).approve plan (r.carry p) = ((m.approve plan r).1, (m.approve plan r).2.carry p) := by
  have hreports : ∀ lacking : List Nat,
      lacking.foldl (fun r s => r.report .noInitial "compound state has no initial transition"
          (some (m.chart.idOf s))) (r.carry p) =
        (lacking.foldl (fun r s => r.report .noInitial
          "compound state has no initial transition" (some (m.chart.idOf s))) r).carry p :=
    fun lacking => r.foldl_carry p (fun r s _ => rfl)
  unfold approve
  dsimp only
  rw [chart_on, hreports]
  exact m.checkLegality_carry plan.next _

theorem leave_carry (h : Host.Maps p.world m.host k) (s : Nat) (r : Run σ) :
    (m.on k).leave s (r.carry p) = (m.leave s r).carry p := by
  unfold leave
  simp only [chart_on, runBlock_carry h, cancelInvokes_carry h, Run.mapSession_carry,
    reopenAround_carry]
  exact (apply_ite (Run.carry p) _ _ _).symm

theorem fire_carry (h : Host.Maps p.world m.host k) (t : Nat) (r : Run σ) :
    (m.on k).fire t (r.carry p) = (m.fire t r).carry p :=
  runBlock_carry h _ _ _ r

theorem runDefaults_carry (h : Host.Maps p.world m.host k) (step : Step) (s : Nat) (r : Run σ) :
    (m.on k).runDefaults step s (r.carry p) = (m.runDefaults step s r).carry p := by
  unfold runDefaults
  dsimp only
  rw [chart_on]
  refine Eq.trans (congrArg (List.foldl _ · _) ?_) (Run.foldl_carry p _ ?_)
  · cases m.chart.defaultTransition? s with
    | none => rfl
    | some t =>
      dsimp only
      split
      · exact runBlock_carry h _ _ _ r
      · rfl
  · intro r x _
    cases step.historyDefaults.get? x with
    | none => rfl
    | some t => exact runBlock_carry h _ _ _ r

theorem enter_carry (h : Host.Maps p.world m.host k) (step : Step) (s : Nat) (r : Run σ) :
    (m.on k).enter step s (r.carry p) = (m.enter step s r).carry p := by
  unfold enter
  simp only [chart_on, Run.mapSession_carry, runBlock_carry h, runDefaults_carry h,
    ← apply_ite (Run.carry p), completeAround_carry]

theorem runContent_carry (h : Host.Maps p.world m.host k) (step : Step) (r : Run σ) :
    (m.on k).runContent step (r.carry p) = (m.runContent step r).carry p := by
  unfold runContent
  dsimp only
  rw [Run.foldl_carry p r (fun r s _ => leave_carry h s r),
    Run.foldl_carry p _ (fun r t _ => fire_carry h t r),
    Run.foldl_carry p _ (fun r s _ => enter_carry h step s r)]

theorem carryOut_carry (h : Host.Maps p.world m.host k) (step : Step) (r : Run σ) :
    (m.on k).carryOut step (r.carry p) =
      ((m.carryOut step r).1, (m.carryOut step r).2.carry p) := by
  unfold carryOut moveConfiguration
  rw [runContent_carry h, Run.session_carry, chart_on]
  split
  · rfl
  · rfl

theorem initialStep_carry (h : Host.Maps p.world m.host k) (r : Run σ) :
    (m.on k).initialStep (r.carry p) = ((m.initialStep r).1, (m.initialStep r).2.carry p) := by
  unfold initialStep
  dsimp only
  rw [chart_on, Run.session_carry, Run.report_carry, carryOut_carry h, approve_carry]
  cases m.chart.initial.isEmpty with
  | true => rfl
  | false =>
    obtain ⟨failure, s, hs⟩ : ∃ failure s,
        m.approve (m.chart.planStart r.session.histories) r = (failure, s) := ⟨_, _, rfl⟩
    rw [hs]
    cases failure with
    | some e => rfl
    | none => exact carryOut_carry h _ s

theorem microstep_carry (h : Host.Maps p.world m.host k) (event : Option Event) (r : Run σ) :
    (m.on k).microstep event (r.carry p) =
      ((m.microstep event r).1, (m.microstep event r).2.carry p) := by
  unfold microstep
  dsimp only
  rw [chart_on, Run.mapSession_carry, Run.session_carry, select_carry]
  obtain ⟨ts, s, hselect⟩ : ∃ ts s, m.select (m.chart.candidates (event.map Event.name)
      (r.mapSession (·.bindEvent event)).session.status.states)
      (r.mapSession (·.bindEvent event)).session.status.states
      (r.mapSession (·.bindEvent event)) = (ts, s) := ⟨_, _, rfl⟩
  rw [hselect]
  dsimp only
  rw [Run.session_carry, approve_carry]
  cases ts.isEmpty with
  | true => rfl
  | false =>
    obtain ⟨failure, t, ht⟩ : ∃ failure t, m.approve (m.chart.plan s.session.histories
        (r.mapSession (·.bindEvent event)).session.status ts) s = (failure, t) := ⟨_, _, rfl⟩
    rw [ht]
    cases failure with
    | some e => rfl
    | none =>
      simp only [Bool.false_eq_true, if_false, Run.mapSession_carry]
      exact carryOut_carry h _ _

theorem stop_carry (h : Host.Maps p.world m.host k) (r : Run σ) :
    (m.on k).stop (r.carry p) = (m.stop r).carry p := by
  unfold stop
  rw [cancelAllInvokes_carry h]
  rfl

theorem takeInternal_carry (r : Run σ) :
    takeInternal (r.carry p) = (takeInternal r).map (fun taken => (taken.1, taken.2.carry p)) := by
  unfold takeInternal
  rw [Run.session_carry]
  cases r.session.internal <;> rfl

/-- A round, carried over. -/
def Round.carry (p : Passage σ τ) : Round σ → Round τ
  | .moved step r => .moved step (r.carry p)
  | .idle r => .idle (r.carry p)
  | .failed e r => .failed e (r.carry p)

theorem round_carry (h : Host.Maps p.world m.host k) (r : Run σ) :
    (m.on k).round (r.carry p) = (m.round r).carry p := by
  unfold round
  rw [microstep_carry h]
  obtain ⟨result, s, hs⟩ : ∃ result s, m.microstep none r = (result, s) := ⟨_, _, rfl⟩
  rw [hs]
  cases result with
  | error e => rfl
  | ok step =>
    dsimp only
    split
    · rfl
    · rw [takeInternal_carry]
      cases takeInternal s with
      | none => rfl
      | some taken =>
        obtain ⟨e, t⟩ := taken
        simp only [Option.map_some, microstep_carry h]
        obtain ⟨result, u, hu⟩ : ∃ result u, m.microstep (some e) t = (result, u) := ⟨_, _, rfl⟩
        rw [hu]
        cases result <;> rfl

theorem settled_carry (h : Host.Maps p.world m.host k) (r : Run σ) :
    (m.on k).settled (r.carry p) = (m.settled r).carry p := by
  unfold settled
  dsimp only
  rw [Run.mapSession_carry, stop_carry h, Run.session_carry]
  exact (apply_ite (Run.carry p) _ _ _).symm

theorem exhausted_carry (h : Host.Maps p.world m.host k) (r : Run σ) :
    (m.on k).exhausted (r.carry p) = (m.exhausted r).carry p := by
  unfold exhausted
  dsimp only
  rw [Run.report_carry, stop_carry h]
  rfl

theorem settle_carry (h : Host.Maps p.world m.host k) (budget : Nat) (r : Run σ) :
    (m.on k).settle budget (r.carry p) =
      ((m.settle budget r).1, (m.settle budget r).2.carry p) := by
  induction budget generalizing r with
  | zero => exact Prod.ext rfl (exhausted_carry h r)
  | succ budget ih =>
    unfold settle
    dsimp only
    rw [round_carry h]
    cases m.round r with
    | failed e s => rfl
    | moved step s =>
      simp only [Round.carry, ih, summaryOf_on]
    | idle s =>
      simp only [Round.carry, startInvokes_carry h, Run.session_carry, settled_carry h,
        round_carry h]
      cases (m.startInvokes s).session.internal.isEmpty with
      | true => rfl
      | false =>
        simp only [Bool.false_eq_true, if_false]
        cases m.round (m.startInvokes s) with
        | failed e t => rfl
        | moved step t => simp only [ih, summaryOf_on]
        | idle t => simp only [settled_carry h]

theorem complete_carry (h : Host.Maps p.world m.host k) (first : Except StepError Step)
    (r : Run σ) :
    (m.on k).complete (first, r.carry p) =
      ((m.complete (first, r)).1, (m.complete (first, r)).2.carry p) := by
  cases first with
  | error e => exact Prod.ext rfl (stop_carry h r)
  | ok step =>
    unfold complete
    simp only [settle_carry h, config_on]
    obtain ⟨rest, s, hs⟩ : ∃ rest s, m.settle m.config.maxMicrosteps r = (rest, s) := ⟨_, _, rfl⟩
    rw [hs]
    cases rest with
    | error e => exact Prod.ext rfl (stop_carry h s)
    | ok rest => rfl

theorem reset_carry (h : Host.Maps p.world m.host k) (r : Run σ) :
    (m.on k).reset (r.carry p) = (m.reset r).carry p := by
  unfold reset
  dsimp only
  rw [cancelAllInvokes_carry h, Run.mapSession_carry]
  exact congrArg (fun s => s.mapSession (·.publish m.chart)) (m.initializeData_carry _)

/-- Whatever is done to a run that is carried over is what would have been done to the run
itself, carried over. -/
theorem operate_carry (h : Host.Maps p.world m.host k) (operation : Operation) (r : Run σ) :
    (m.on k).operate operation (r.carry p) =
      ((m.operate operation r).1, (m.operate operation r).2.carry p) := by
  cases operation with
  | go =>
    simp only [operate, go, reset_carry h, Run.mapSession_carry, initialStep_carry h]
    exact complete_carry h _ _
  | reset => exact Prod.ext rfl (reset_carry h r)
  | stop => exact Prod.ext rfl (stop_carry h r)
  | trigger event =>
    by_cases hrunning : r.session.running = true
    · by_cases hcancel : event.kind = .cancel
      · simp [operate, trigger, hrunning, hcancel, stop_carry h]
      · simp [operate, trigger, hrunning, hcancel, microstep_carry h, complete_carry h]
    · simp [operate, trigger, hrunning]

theorem operateAll_carry (h : Host.Maps p.world m.host k) (operations : List Operation)
    (r : Run σ) :
    (m.on k).operateAll operations (r.carry p) = (m.operateAll operations r).carry p := by
  apply Run.foldl_carry
  intro r operation _
  rw [operate_carry h]

end Interpreter

/-- The two hosts answer alike in states that `R` relates, and their states stay related. -/
structure Host.AnswersAlike (R : σ → τ → Prop) (h : Host σ) (k : Host τ) : Prop where
  send : ∀ request {w v}, R w v → (h.send request w).1 = (k.send request v).1 ∧
    R (h.send request w).2 (k.send request v).2
  cancelSend : ∀ sendId {w v}, R w v → (h.cancelSend sendId w).1 = (k.cancelSend sendId v).1 ∧
    R (h.cancelSend sendId w).2 (k.cancelSend sendId v).2
  startInvoke : ∀ request {w v}, R w v →
    (h.startInvoke request w).1 = (k.startInvoke request v).1 ∧
      R (h.startInvoke request w).2 (k.startInvoke request v).2
  cancelInvoke : ∀ invokeId {w v}, R w v →
    (h.cancelInvoke invokeId w).1 = (k.cancelInvoke invokeId v).1 ∧
      R (h.cancelInvoke invokeId w).2 (k.cancelInvoke invokeId v).2

namespace Host.AnswersAlike

variable {R : σ → τ → Prop} {h : Host σ} {k : Host τ}

/-- Both hosts at once, in a pair of related states. -/
def joint (halike : AnswersAlike R h k) : Host { w : σ × τ // R w.1 w.2 } where
  send request w := ((h.send request w.1.1).1,
    ⟨((h.send request w.1.1).2, (k.send request w.1.2).2), (halike.send request w.2).2⟩)
  cancelSend sendId w := ((h.cancelSend sendId w.1.1).1,
    ⟨((h.cancelSend sendId w.1.1).2, (k.cancelSend sendId w.1.2).2),
      (halike.cancelSend sendId w.2).2⟩)
  startInvoke request w := ((h.startInvoke request w.1.1).1,
    ⟨((h.startInvoke request w.1.1).2, (k.startInvoke request w.1.2).2),
      (halike.startInvoke request w.2).2⟩)
  cancelInvoke invokeId w := ((h.cancelInvoke invokeId w.1.1).1,
    ⟨((h.cancelInvoke invokeId w.1.1).2, (k.cancelInvoke invokeId w.1.2).2),
      (halike.cancelInvoke invokeId w.2).2⟩)

theorem maps_left (halike : AnswersAlike R h k) : Host.Maps (fun w => w.1.1) halike.joint h where
  send _ _ := rfl
  cancelSend _ _ := rfl
  startInvoke _ _ := rfl
  cancelInvoke _ _ := rfl

theorem maps_right (halike : AnswersAlike R h k) : Host.Maps (fun w => w.1.2) halike.joint k where
  send request w := Prod.ext (halike.send request w.2).1.symm rfl
  cancelSend sendId w := Prod.ext (halike.cancelSend sendId w.2).1.symm rfl
  startInvoke request w := Prod.ext (halike.startInvoke request w.2).1.symm rfl
  cancelInvoke invokeId w := Prod.ext (halike.cancelInvoke invokeId w.2).1.symm rfl

/-- Two runs with the same session go on alike: the same comes of every operation, the sessions
stay the same, and the same is added to the journals. Both are the same run of the joint host,
carried over. -/
theorem operateAll_alike {m : Interpreter σ} (halike : AnswersAlike R m.host k) {r : Run σ}
    {q : Run τ} (hsession : q.session = r.session) (hworld : R r.world q.world)
    (operations : List Operation) :
    (∀ operation, (m.operate operation (m.operateAll operations r)).1 =
        ((m.on k).operate operation ((m.on k).operateAll operations q)).1) ∧
      ((m.on k).operateAll operations q).session = (m.operateAll operations r).session ∧
      ∃ entries, (m.operateAll operations r).journal = entries ++ r.journal ∧
        ((m.on k).operateAll operations q).journal = entries ++ q.journal := by
  let both : Run { w : σ × τ // R w.1 w.2 } := ⟨r.session, [], ⟨(r.world, q.world), hworld⟩, []⟩
  let left : Passage { w : σ × τ // R w.1 w.2 } σ := ⟨fun w => w.1.1, r.queue, r.journal⟩
  let right : Passage { w : σ × τ // R w.1 w.2 } τ := ⟨fun w => w.1.2, q.queue, q.journal⟩
  have hr : r = both.carry left := by simp [Run.carry, both, left]
  have hq : q = both.carry right := by simp [Run.carry, both, right, ← hsession]
  let n : Interpreter { w : σ × τ // R w.1 w.2 } := m.on halike.joint
  have hleft : ∀ s : Run { w : σ × τ // R w.1 w.2 },
      m.operateAll operations (s.carry left) = (n.operateAll operations s).carry left :=
    fun s => Interpreter.operateAll_carry (m := n) halike.maps_left operations s
  have hright : ∀ s : Run { w : σ × τ // R w.1 w.2 },
      (m.on k).operateAll operations (s.carry right) = (n.operateAll operations s).carry right :=
    fun s => Interpreter.operateAll_carry (m := n) halike.maps_right operations s
  have hrun := (congrArg (m.operateAll operations) hr).trans (hleft both)
  have hrun' := (congrArg ((m.on k).operateAll operations) hq).trans (hright both)
  refine ⟨?_, ?_, (n.operateAll operations both).journal, ?_, ?_⟩
  · intro operation
    have hout : m.operate operation ((n.operateAll operations both).carry left) = _ :=
      Interpreter.operate_carry (m := n) halike.maps_left operation _
    have hout' : (m.on k).operate operation ((n.operateAll operations both).carry right) = _ :=
      Interpreter.operate_carry (m := n) halike.maps_right operation _
    rw [hrun, hrun', hout, hout']
  · rw [hrun, hrun']
    rfl
  · rw [hrun]
    rfl
  · rw [hrun']
    rfl

end Host.AnswersAlike

end Statechart
