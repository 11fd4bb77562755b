import Statechart.Proofs.Effects

/-!
Content that fails. A block is executed up to its first failing action, and a conditional
executes one list of actions or fails on the way to it. This is written down as a relation that
does not mention what comes after a failure; running a block is then shown to follow it, and to
add one report and one error event when it ends in a failure.
-/

namespace Statechart

/-- An action other than a conditional. -/
def Action.IsPlain : Action → Prop
  | .choose .. => False
  | _ => True

/-- The entry notes what an action does: a line is logged, the host is asked to send something or to
take it back, or a signal is raised. Nothing is reported. -/
def Entry.isDeed : Entry → Bool
  | .log .. | .send .. | .cancelSend .. => true
  | .raised e => decide (e.kind = .signal)
  | _ => false

variable {σ : Type}

/-- On the way from the run `r` to the run `s` nothing is noted but deeds, and the signals among
them wait in the internal queue behind the events of `r`. -/
def Smoothly (r s : Run σ) : Prop :=
  ∃ deeds, s.journal = deeds ++ r.journal ∧ (∀ e ∈ deeds, e.isDeed = true) ∧
    s.session.internal = r.session.internal ++ raisedIn deeds

namespace Smoothly

theorem of_eq {r s : Run σ} (hjournal : s.journal = r.journal)
    (hinternal : s.session.internal = r.session.internal) : Smoothly r s :=
  ⟨[], hjournal, by simp, by simp [hinternal]⟩

theorem refl (r : Run σ) : Smoothly r r :=
  of_eq rfl rfl

theorem trans {r s t : Run σ} (hrs : Smoothly r s) (hst : Smoothly s t) : Smoothly r t := by
  obtain ⟨older, hs, holder, hs'⟩ := hrs
  obtain ⟨newer, ht, hnewer, ht'⟩ := hst
  refine ⟨newer ++ older, by rw [ht, hs, List.append_assoc], ?_, ?_⟩
  · intro e he
    exact (List.mem_append.1 he).elim (hnewer e) (holder e)
  · rw [ht', hs', raisedIn_append, List.append_assoc]

theorem note (r : Run σ) {e : Entry} (hraised : e.raised? = none) (hdeed : e.isDeed = true) :
    Smoothly r (r.note e) :=
  ⟨[e], rfl, by simpa using hdeed, by simp [raisedIn, hraised, Run.note]⟩

theorem raise (r : Run σ) {e : Event} (he : e.kind = .signal) : Smoothly r (r.raise e) :=
  ⟨[.raised e], rfl, by simpa [Entry.isDeed] using he, rfl⟩

end Smoothly

/-- An action that fails for the reason `e` takes the run `r` to the run `s`: nothing happens at
all, unless the host was asked to send something and refused. Then a number may have been used up
for the id of the send, but the variables and the internal queue are as before. -/
inductive Fails : ContentError → Run σ → Run σ → Prop where
  | still {e : ContentError} (r : Run σ) (he : ∀ d, e ≠ .dispatch d) : Fails e r r
  | refused {r s : Run σ} {request : SendRequest} {reply : Reply DispatchError}
      {d : DispatchError}
      (hsession : s.session = { r.session with sequence := s.session.sequence })
      (hjournal : s.journal = .send request reply :: r.journal)
      (hrefusal : reply.refusal = some d) : Fails (.dispatch d) r s

/-- What a conditional comes to while its conditions hold as `holds` says: a list of actions to
execute, or a condition that cannot be evaluated. -/
inductive Chooses (holds : String → Except EvaluationError Bool) :
    List Branch → List Action → Except EvaluationError (List Action) → Prop where
  | otherwise (otherwise : List Action) : Chooses holds [] otherwise (.ok otherwise)
  | branch {condition : String} {actions : List Action} {rest : List Branch}
      {otherwise : List Action} (h : holds condition = .ok true) :
    Chooses holds (.mk condition actions :: rest) otherwise (.ok actions)
  | skip {condition : String} {actions : List Action} {rest : List Branch}
      {otherwise : List Action} {choice : Except EvaluationError (List Action)}
      (h : holds condition = .ok false) (hrest : Chooses holds rest otherwise choice) :
    Chooses holds (.mk condition actions :: rest) otherwise choice
  | undecided {condition : String} {actions : List Action} {rest : List Branch}
      {otherwise : List Action} {e : EvaluationError} (h : holds condition = .error e) :
    Chooses holds (.mk condition actions :: rest) otherwise (.error e)

theorem Chooses.unique {holds : String → Except EvaluationError Bool} {branches : List Branch}
    {otherwise : List Action} {choice choice' : Except EvaluationError (List Action)}
    (h : Chooses holds branches otherwise choice)
    (h' : Chooses holds branches otherwise choice') : choice = choice' := by
  induction h with
  | otherwise => cases h'; rfl
  | branch hcondition => cases h' <;> simp_all
  | skip hcondition _ ih =>
    cases h' with
    | skip _ hrest => exact ih hrest
    | branch hholds => rw [hcondition] at hholds; cases hholds
    | undecided herror => rw [hcondition] at herror; cases herror
  | undecided hcondition => cases h' <;> simp_all

namespace Interpreter

variable (m : Interpreter σ)

/-- The actions, executed in order for the state `owner` from the run `r` on, end well or in a
failure, and `s` is the run afterwards. The first failing action is the last one executed, also of
the conditionals around it. -/
inductive Executes (owner : Nat) :
    List Action → Run σ → Option ContentError → Run σ → Prop where
  | done (r : Run σ) : Executes owner [] r none r
  | next {action : Action} {rest : List Action} {r s t : Run σ} {outcome : Option ContentError}
      (hplain : action.IsPlain) (hfirst : m.perform owner action r = (none, s))
      (hrest : Executes owner rest s outcome t) : Executes owner (action :: rest) r outcome t
  | fail {action : Action} {rest : List Action} {r s : Run σ} {e : ContentError}
      (hplain : action.IsPlain) (hfirst : m.perform owner action r = (some e, s))
      (hfails : Fails e r s) : Executes owner (action :: rest) r (some e) s
  | choose {branches : List Branch} {otherwise actions rest : List Action} {r s t : Run σ}
      {outcome : Option ContentError}
      (hchoice : Chooses (m.evaluator.holds (m.viewOf r owner)) branches otherwise (.ok actions))
      (hactions : Executes owner actions r none s) (hrest : Executes owner rest s outcome t) :
    Executes owner (.choose branches otherwise :: rest) r outcome t
  | chooseFail {branches : List Branch} {otherwise actions rest : List Action} {r s : Run σ}
      {e : ContentError}
      (hchoice : Chooses (m.evaluator.holds (m.viewOf r owner)) branches otherwise (.ok actions))
      (hactions : Executes owner actions r (some e) s) :
    Executes owner (.choose branches otherwise :: rest) r (some e) s
  | undecided {branches : List Branch} {otherwise rest : List Action} {r : Run σ}
      {e : EvaluationError}
      (hchoice : Chooses (m.evaluator.holds (m.viewOf r owner)) branches otherwise (.error e)) :
    Executes owner (.choose branches otherwise :: rest) r (some (.evaluation e)) r

/-- An expression that cannot be evaluated is no refusal. -/
theorem ne_dispatch_of_evaluation {α β : Type} {x : Except EvaluationError α} {f : α → β}
    {e : ContentError} (h : (x.mapError .evaluation).map f = .error e) (d : DispatchError) :
    e ≠ .dispatch d := by
  cases x with
  | error e' =>
    cases h
    exact nofun
  | ok => cases h

theorem ne_dispatch_of_eventName {evaluator : Evaluator} {view : View} {request : Send}
    {e : ContentError} (h : evaluator.eventName view request = .error e) (d : DispatchError) :
    e ≠ .dispatch d := by
  unfold Evaluator.eventName at h
  split at h
  · cases h
  · exact ne_dispatch_of_evaluation h d
  · cases h
    exact nofun

/-- What goes wrong in two steps goes wrong in the first or in the second. -/
theorem cases_of_bind_error {α β ε : Type} {x : Except ε α} {f : α → Except ε β} {e : ε}
    (h : (x >>= f) = .error e) : x = .error e ∨ ∃ a, x = .ok a ∧ f a = .error e := by
  cases x with
  | error e' =>
    cases h
    exact .inl rfl
  | ok a => exact .inr ⟨a, rfl, h⟩

/-- What goes wrong along a list goes wrong at one of its members. -/
theorem exists_of_mapM_error {α β ε : Type} {f : α → Except ε β} {xs : List α} {e : ε}
    (h : xs.mapM f = .error e) : ∃ x ∈ xs, f x = .error e := by
  induction xs with
  | nil => cases h
  | cons x rest ih =>
    rw [List.mapM_cons] at h
    rcases cases_of_bind_error h with hx | ⟨y, -, h⟩
    · exact ⟨x, by simp, hx⟩
    · rcases cases_of_bind_error h with hrest | ⟨ys, -, h⟩
      · obtain ⟨z, hz, hfz⟩ := ih hrest
        exact ⟨z, List.mem_cons_of_mem x hz, hfz⟩
      · cases h

theorem ne_dispatch_of_payload {evaluator : Evaluator} {view : View} {request : Send}
    {e : ContentError} (h : evaluator.payload view request = .error e) (d : DispatchError) :
    e ≠ .dispatch d := by
  unfold Evaluator.payload at h
  split at h
  · exact ne_dispatch_of_evaluation h d
  · rcases cases_of_bind_error h with hnames | ⟨listed, -, h⟩
    · obtain ⟨name, -, hname⟩ := exists_of_mapM_error hnames
      split at hname
      · cases hname
      · cases hname
        exact nofun
    · rcases cases_of_bind_error h with hparams | ⟨passed, -, h⟩
      · obtain ⟨p, -, hp⟩ := exists_of_mapM_error hparams
        exact ne_dispatch_of_evaluation hp d
      · cases h

theorem fails_assign {owner : Nat} {location expr : String} {r s : Run σ} {e : ContentError}
    (h : m.assign owner location expr r = (some e, s)) : Fails e r s := by
  unfold assign at h
  dsimp only at h
  split at h
  · cases h
    exact .still r nofun
  · split at h
    · cases h
      exact .still r nofun
    · split at h
      · cases h
        exact .still r nofun
      · cases h

theorem fails_declare {owner : Nat} {name : String} {expr : Option String} {r s : Run σ}
    {e : ContentError} (h : m.declare owner name expr r = (some e, s)) : Fails e r s := by
  unfold declare at h
  dsimp only at h
  split at h
  · cases h
    exact .still r nofun
  · split at h
    · cases h
    · split at h
      · cases h
        exact .still r nofun
      · cases h

theorem fails_log {owner : Nat} {label expr : Option String} {r s : Run σ} {e : ContentError}
    (h : m.log owner label expr r = (some e, s)) : Fails e r s := by
  unfold log at h
  dsimp only at h
  split at h
  · cases h
  · split at h
    · cases h
      exact .still r nofun
    · cases h

theorem fails_dispatch {request : SendRequest} {r s : Run σ} {e : ContentError}
    (h : m.dispatch request r = (some e, s)) :
    ∃ d, e = .dispatch d ∧ s.session = r.session ∧ ∃ reply : Reply DispatchError,
      s.journal = .send request reply :: r.journal ∧ reply.refusal = some d := by
  obtain ⟨he, rfl⟩ := Prod.mk.inj h
  obtain ⟨d, hd, rfl⟩ := Option.map_eq_some_iff.1 he
  exact ⟨d, rfl, rfl, _, rfl, hd⟩

theorem fails_send {owner : Nat} {request : Send} {r s : Run σ} {e : ContentError}
    (h : m.send owner request r = (some e, s)) : Fails e r s := by
  unfold send at h
  dsimp only at h
  split at h
  · next hname =>
    cases h
    exact .still r (ne_dispatch_of_eventName hname)
  · split at h
    · next hpayload =>
      cases h
      exact .still r (ne_dispatch_of_payload hpayload)
    · -- With or without an id of its own, the send differs only in the number used up.
      cases hid : request.id with
      | some id =>
        simp only [hid] at h
        split at h
        · cases h
        · obtain ⟨d, rfl, hsession, reply, hjournal, hrefusal⟩ := m.fails_dispatch h
          exact .refused (by rw [hsession]) hjournal hrefusal
      | none =>
        simp only [hid] at h
        split at h
        · cases h
        · obtain ⟨d, rfl, hsession, reply, hjournal, hrefusal⟩ := m.fails_dispatch h
          exact .refused (by rw [hsession]; rfl) hjournal hrefusal

/-- A plain action that fails has done nothing but perhaps asked the host. -/
theorem fails_perform {owner : Nat} {action : Action} (hplain : action.IsPlain) {r s : Run σ}
    {e : ContentError} (h : m.perform owner action r = (some e, s)) : Fails e r s := by
  cases action with
  | assign location expr => exact m.fails_assign h
  | declare name expr => exact m.fails_declare h
  | log label expr => exact m.fails_log h
  | raise event => cases h
  | send request => exact m.fails_send h
  | cancel sendId => cases h
  | choose branches otherwise => exact hplain.elim

theorem smoothly_assign (owner : Nat) (location expr : String) (r : Run σ) :
    Smoothly r (m.assign owner location expr r).2 := by
  unfold assign
  dsimp only
  split
  · exact .refl r
  · split
    · exact .refl r
    · split
      · exact .refl r
      · exact .of_eq rfl rfl

theorem smoothly_declare (owner : Nat) (name : String) (expr : Option String) (r : Run σ) :
    Smoothly r (m.declare owner name expr r).2 := by
  unfold declare
  dsimp only
  split
  · exact .refl r
  · split
    · exact .of_eq rfl rfl
    · split
      · exact .refl r
      · exact .of_eq rfl rfl

theorem smoothly_log (owner : Nat) (label expr : Option String) (r : Run σ) :
    Smoothly r (m.log owner label expr r).2 := by
  unfold log
  dsimp only
  split
  · exact .note r rfl rfl
  · split
    · exact .refl r
    · exact .note r rfl rfl

theorem smoothly_dispatch (request : SendRequest) (r : Run σ) :
    Smoothly r (m.dispatch request r).2 := by
  have hhear : Smoothly r (r.hear (m.host.send request r.world)) := .of_eq rfl rfl
  exact hhear.trans (.note _ rfl rfl)

theorem smoothly_send (owner : Nat) (request : Send) (r : Run σ) :
    Smoothly r (m.send owner request r).2 := by
  unfold send
  dsimp only
  split
  · exact .refl r
  · split
    · exact .refl r
    · have hadvance : Smoothly r (r.mapSession Session.advance) := .of_eq rfl rfl
      cases request.id with
      | some id =>
        dsimp only
        split
        · exact .raise r rfl
        · exact m.smoothly_dispatch _ r
      | none =>
        dsimp only
        split
        · exact hadvance.trans (.raise _ rfl)
        · exact hadvance.trans (m.smoothly_dispatch _ _)

theorem smoothly_cancelSend (sendId : String) (r : Run σ) :
    Smoothly r (m.cancelSend sendId r) := by
  have hhear : Smoothly r (r.hear (m.host.cancelSend sendId r.world)) := .of_eq rfl rfl
  exact hhear.trans (.note _ rfl rfl)

theorem smoothly_perform {owner : Nat} {action : Action} (hplain : action.IsPlain) (r : Run σ) :
    Smoothly r (m.perform owner action r).2 := by
  cases action with
  | assign location expr => exact m.smoothly_assign owner location expr r
  | declare name expr => exact m.smoothly_declare owner name expr r
  | log label expr => exact m.smoothly_log owner label expr r
  | raise event => exact .raise r rfl
  | send request => exact m.smoothly_send owner request r
  | cancel sendId => exact m.smoothly_cancelSend sendId r
  | choose branches otherwise => exact hplain.elim

namespace Executes

variable {m} {owner : Nat}

/-- Nothing after a failure is looked at. -/
theorem abort {actions : List Action} {r s : Run σ} {e : ContentError}
    (h : m.Executes owner actions r (some e) s) (rest : List Action) :
    m.Executes owner (actions ++ rest) r (some e) s := by
  generalize houtcome : some e = outcome at h
  induction h with
  | done => cases houtcome
  | next hplain hfirst _ ih => exact .next hplain hfirst (ih houtcome)
  | fail hplain hfirst hfails =>
    cases houtcome
    exact .fail hplain hfirst hfails
  | choose hchoice hactions _ _ ih => exact .choose hchoice hactions (ih houtcome)
  | chooseFail hchoice hactions _ =>
    cases houtcome
    exact .chooseFail hchoice hactions
  | undecided hchoice =>
    cases houtcome
    exact .undecided hchoice

theorem append {actions rest : List Action} {r s t : Run σ} {outcome : Option ContentError}
    (h : m.Executes owner actions r none s) (hrest : m.Executes owner rest s outcome t) :
    m.Executes owner (actions ++ rest) r outcome t := by
  generalize hnone : (none : Option ContentError) = well at h
  induction h with
  | done => exact hrest
  | next hplain hfirst _ ih => exact .next hplain hfirst (ih hrest hnone)
  | choose hchoice hactions _ _ ih => exact .choose hchoice hactions (ih hrest hnone)
  | fail => cases hnone
  | chooseFail => cases hnone
  | undecided => cases hnone

/-- Actions are executed in one way only. -/
theorem unique {actions : List Action} {r s s' : Run σ} {outcome outcome' : Option ContentError}
    (h : m.Executes owner actions r outcome s) (h' : m.Executes owner actions r outcome' s') :
    outcome' = outcome ∧ s' = s := by
  induction h generalizing outcome' s' with
  | done =>
    cases h'
    exact ⟨rfl, rfl⟩
  | next hplain hfirst _ ih =>
    cases h' with
    | next _ hfirst' hrest =>
      rw [hfirst] at hfirst'
      cases hfirst'
      exact ih hrest
    | fail _ hfirst' _ =>
      rw [hfirst] at hfirst'
      cases hfirst'
    | choose | chooseFail | undecided => exact hplain.elim
  | fail hplain hfirst _ =>
    cases h' with
    | next _ hfirst' _ =>
      rw [hfirst] at hfirst'
      cases hfirst'
    | fail _ hfirst' _ =>
      rw [hfirst] at hfirst'
      cases hfirst'
      exact ⟨rfl, rfl⟩
    | choose | chooseFail | undecided => exact hplain.elim
  | choose hchoice _ _ ihactions ihrest =>
    cases h' with
    | next hplain | fail hplain => exact hplain.elim
    | choose hchoice' hactions' hrest' =>
      cases hchoice.unique hchoice'
      obtain ⟨-, rfl⟩ := ihactions hactions'
      exact ihrest hrest'
    | chooseFail hchoice' hactions' =>
      cases hchoice.unique hchoice'
      cases (ihactions hactions').1
    | undecided hchoice' => cases hchoice.unique hchoice'
  | chooseFail hchoice _ ihactions =>
    cases h' with
    | next hplain | fail hplain => exact hplain.elim
    | choose hchoice' hactions' _ =>
      cases hchoice.unique hchoice'
      cases (ihactions hactions').1
    | chooseFail hchoice' hactions' =>
      cases hchoice.unique hchoice'
      exact ihactions hactions'
    | undecided hchoice' => cases hchoice.unique hchoice'
  | undecided hchoice =>
    cases h' with
    | next hplain | fail hplain => exact hplain.elim
    | choose hchoice' | chooseFail hchoice' => cases hchoice.unique hchoice'
    | undecided hchoice' =>
      cases hchoice.unique hchoice'
      exact ⟨rfl, rfl⟩

/-- What every plain action does to a run, any actions do. -/
theorem along {R : Run σ → Run σ → Prop} (hrefl : ∀ r, R r r)
    (htrans : ∀ {r s t}, R r s → R s t → R r t)
    (hplain : ∀ {action : Action}, action.IsPlain → ∀ r, R r (m.perform owner action r).2)
    {actions : List Action} {r s : Run σ} {outcome : Option ContentError}
    (h : m.Executes owner actions r outcome s) : R r s := by
  have hstep : ∀ {action : Action} {r s : Run σ} {outcome : Option ContentError},
      action.IsPlain → m.perform owner action r = (outcome, s) → R r s := by
    intro action r s outcome haction hperform
    have hr := hplain haction r
    rw [hperform] at hr
    exact hr
  induction h with
  | done r => exact hrefl r
  | next haction hfirst _ ih => exact htrans (hstep haction hfirst) ih
  | fail haction hfirst _ => exact hstep haction hfirst
  | choose _ _ _ ihactions ihrest => exact htrans ihactions ihrest
  | chooseFail _ _ ih => exact ih
  | undecided => exact hrefl _

/-- Executing actions reports nothing; a failure is reported afterwards. -/
theorem smoothly {actions : List Action} {r s : Run σ} {outcome : Option ContentError}
    (h : m.Executes owner actions r outcome s) : Smoothly r s :=
  h.along .refl .trans m.smoothly_perform

/-- A conditional does what the actions chosen do. -/
theorem chosen {branches : List Branch} {otherwise actions : List Action} {r s : Run σ}
    {outcome : Option ContentError}
    (hchoice : Chooses (m.evaluator.holds (m.viewOf r owner)) branches otherwise (.ok actions))
    (h : m.Executes owner actions r outcome s) :
    m.Executes owner [.choose branches otherwise] r outcome s := by
  cases outcome with
  | none => exact .choose hchoice h (.done s)
  | some e => exact .chooseFail hchoice h

/-- A branch whose condition does not hold may as well be missing. -/
theorem skip {condition : String} {actions otherwise : List Action} {rest : List Branch}
    {r s : Run σ} {outcome : Option ContentError}
    (hcondition : m.evaluator.holds (m.viewOf r owner) condition = .ok false)
    (h : m.Executes owner [.choose rest otherwise] r outcome s) :
    m.Executes owner [.choose (.mk condition actions :: rest) otherwise] r outcome s := by
  cases h with
  | next hplain | fail hplain => exact hplain.elim
  | choose hchoice hactions hdone => exact .choose (.skip hcondition hchoice) hactions hdone
  | chooseFail hchoice hactions => exact .chooseFail (.skip hcondition hchoice) hactions
  | undecided hchoice => exact .undecided (.skip hcondition hchoice)

end Executes

theorem executes_plain {owner : Nat} {action : Action} (hplain : action.IsPlain) (r : Run σ) :
    m.Executes owner [action] r (m.perform owner action r).1 (m.perform owner action r).2 := by
  cases hperform : m.perform owner action r with
  | mk outcome s =>
    cases outcome with
    | none => exact .next hplain hperform (.done s)
    | some e => exact .fail hplain hperform (m.fails_perform hplain hperform)

mutual

theorem executes_perform (owner : Nat) (action : Action) (r : Run σ) :
    m.Executes owner [action] r (m.perform owner action r).1 (m.perform owner action r).2 := by
  match action with
  | .choose branches otherwise =>
    have hfirst := executes_performFirst owner branches otherwise r
    simp only [perform]
    cases hchosen : m.performFirst owner branches r with
    | some outcome => exact hfirst.1 outcome hchosen
    | none => exact .chosen (hfirst.2 hchosen) (executes_performAll owner otherwise r)
  | .assign .. | .declare .. | .log .. | .raise .. | .send .. | .cancel .. =>
    refine m.executes_plain ?_ r
    exact trivial

theorem executes_performAll (owner : Nat) (actions : List Action) (r : Run σ) :
    m.Executes owner actions r (m.performAll owner actions r).1
      (m.performAll owner actions r).2 := by
  match actions with
  | [] => exact .done r
  | action :: rest =>
    have hfirst := executes_perform owner action r
    simp only [performAll]
    cases hperform : m.perform owner action r with
    | mk outcome s =>
      rw [hperform] at hfirst
      cases outcome with
      | none => exact hfirst.append (executes_performAll owner rest s)
      | some e => exact hfirst.abort rest

theorem executes_performFirst (owner : Nat) (branches : List Branch) (otherwise : List Action)
    (r : Run σ) :
    (∀ outcome, m.performFirst owner branches r = some outcome →
      m.Executes owner [.choose branches otherwise] r outcome.1 outcome.2) ∧
    (m.performFirst owner branches r = none →
      Chooses (m.evaluator.holds (m.viewOf r owner)) branches otherwise (.ok otherwise)) := by
  match branches with
  | [] => exact ⟨nofun, fun _ => .otherwise otherwise⟩
  | .mk condition actions :: rest =>
    have hactions := executes_performAll owner actions r
    have hrest := executes_performFirst owner rest otherwise r
    simp only [performFirst]
    cases hcondition : m.evaluator.holds (m.viewOf r owner) condition with
    | error e =>
      refine ⟨fun outcome h => ?_, nofun⟩
      obtain rfl := Option.some.inj h
      exact .undecided (.undecided hcondition)
    | ok verdict =>
      cases verdict with
      | true =>
        refine ⟨fun outcome h => ?_, nofun⟩
        obtain rfl := Option.some.inj h
        exact .chosen (.branch hcondition) hactions
      | false =>
        exact ⟨fun outcome h => .skip hcondition (hrest.1 outcome h),
          fun h => .skip hcondition (hrest.2 h)⟩

end

theorem executes_iff {owner : Nat} {actions : List Action} {r s : Run σ}
    {outcome : Option ContentError} :
    m.Executes owner actions r outcome s ↔ m.performAll owner actions r = (outcome, s) := by
  have hall := m.executes_performAll owner actions r
  constructor
  · intro h
    obtain ⟨rfl, rfl⟩ := hall.unique h
    rfl
  · intro h
    rw [h] at hall
    exact hall

/-- Running a block executes its actions up to the first that fails. A failure makes whatever
follows pointless; it is reported once and raises one error event, behind the events of the actions
before it. -/
theorem runActions_aborts (owner : Nat) (actions : List Action) (r : Run σ) :
    ∃ outcome s, (∀ outcome' s', m.Executes owner actions r outcome' s' ↔
        outcome' = outcome ∧ s' = s) ∧
      Smoothly r s ∧
      match outcome with
      | none => m.runActions owner actions r = s
      | some e =>
        (∀ rest, m.runActions owner (actions ++ rest) r = m.runActions owner actions r) ∧
        ∃ name, (∀ d, e = .dispatch d → name = Event.errorCommunication) ∧
          ((∀ d, e ≠ .dispatch d) → name = Event.errorExecution) ∧
          m.runActions owner actions r =
            { s with
              session := { s.session with internal := s.session.internal ++ [.error name] }
              journal := .raised (.error name) ::
                .report ⟨e.kind, e.message, some (m.chart.idOf owner)⟩ :: s.journal } := by
  have hall := m.executes_performAll owner actions r
  refine ⟨_, _, fun outcome' s' => ⟨hall.unique, ?_⟩, hall.smoothly, ?_⟩
  · rintro ⟨rfl, rfl⟩
    exact hall
  · unfold runActions
    cases hperform : m.performAll owner actions r with
    | mk outcome s =>
      cases outcome with
      | none => rfl
      | some e =>
        rw [hperform] at hall
        refine ⟨fun rest => ?_, e.eventName, ?_, ?_, rfl⟩
        · rw [m.executes_iff.1 (hall.abort rest)]
        · rintro d rfl
          rfl
        · intro he
          cases e with
          | dispatch d => exact absurd rfl (he d)
          | _ => rfl

end Interpreter

end Statechart
