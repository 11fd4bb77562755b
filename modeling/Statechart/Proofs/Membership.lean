import Statechart.Proofs.Conditions
import Statechart.Proofs.Safety
import Statechart.Proofs.Sessions

/-!
The `In` predicate tells the truth. Conditions are evaluated while the states that were active at
the beginning of the microstep are the ones that are published, content cannot write the variable
that lists them, and every state reads that variable where it is published, unless some data
declares another of its name.
-/

namespace Statechart

theorem Text.trimBlanks_of_ends {a b : Char} (ha : isBlank a = false) (hb : isBlank b = false)
    (mid : List Char) : trimBlanks (a :: mid ++ [b]) = a :: mid ++ [b] := by
  simp [trimBlanks, trimStart, ha, hb]

theorem unquote?_quoted (quote : Char) (id : List Char) :
    unquote? quote (quote :: id ++ [quote]) = some id := by
  have hlast : (id ++ [quote]).getLast? = some quote := by simp
  simp [unquote?, dropLast?, hlast]

/-- An id between quotation marks is read as it stands, whatever it contains. -/
theorem membershipOf?_quoted (id : List Char) :
    membershipOf? (['I', 'n', '(', '\''] ++ id ++ ['\'', ')']) = some id := by
  have hwhole : Text.trimBlanks (['I', 'n', '(', '\''] ++ id ++ ['\'', ')']) =
      'I' :: 'n' :: '(' :: ('\'' :: id ++ ['\''] ++ [')']) := by
    have h := Text.trimBlanks_of_ends (a := 'I') (b := ')') (by decide) (by decide)
      (['n', '(', '\''] ++ id ++ ['\''])
    simpa using h
  have hlast : dropLast? ')' ('\'' :: id ++ ['\''] ++ [')']) = some ('\'' :: id ++ ['\'']) := by
    rw [dropLast?, List.getLast?_concat, if_pos rfl, List.dropLast_concat]
  have hinner : Text.trimBlanks ('\'' :: id ++ ['\'']) = '\'' :: id ++ ['\''] :=
    Text.trimBlanks_of_ends (by decide) (by decide) id
  rw [membershipOf?, hwhole]
  simp only [hlast, Option.map_some, hinner, unquote?_quoted, Option.some_or, Option.getD_some]

/-- The predicate of the id `id`. -/
def inPredicate (id : String) : String :=
  "In('" ++ id ++ "')"

theorem toList_inPredicate (id : String) :
    (inPredicate id).toList = ['I', 'n', '(', '\''] ++ id.toList ++ ['\'', ')'] := by
  simp [inPredicate]

theorem trim_inPredicate (id : String) : Text.trim (inPredicate id) = inPredicate id := by
  have h := Text.trimBlanks_of_ends (a := 'I') (b := ')') (by decide) (by decide)
    (['n', '(', '\''] ++ id.toList ++ ['\''])
  have hblank : Text.trimBlanks (inPredicate id).toList = (inPredicate id).toList := by
    rw [toList_inPredicate]
    simpa using h
  rw [Text.trim, hblank, String.ofList_toList]

theorem Evaluator.holds_inPredicate (view : View) (id : String) :
    minimal.holds view (inPredicate id) = .ok (view.isMember id) := by
  have hread : membershipIn? (inPredicate id) = some id := by
    rw [membershipIn?, toList_inPredicate, membershipOf?_quoted, Option.map_some,
      String.ofList_toList]
  have hne : ∀ word : String, word.toList.head? ≠ some 'I' → inPredicate id ≠ word := by
    rintro word hword rfl
    rw [toList_inPredicate] at hword
    exact hword rfl
  simp only [minimal, trim_inPredicate]
  split
  · next h => exact absurd h (hne "true" (by decide))
  · next h => exact absurd h (hne "false" (by decide))
  · rw [hread]

/-- In the session `t` the scopes are those of `s`, and each holds the same of the variable
`name`. -/
structure SameReading (name : String) (s t : Session) : Prop where
  homes : t.homes = s.homes
  shape : t.scopes.shape = s.scopes.shape
  vars : ∀ n, (t.scopes.vars n).get? name = (s.scopes.vars n).get? name

namespace SameReading

variable {name : String} {s t u : Session}

theorem of_scopes (hhomes : t.homes = s.homes) (hscopes : t.scopes = s.scopes) :
    SameReading name s t :=
  ⟨hhomes, by rw [hscopes], fun n => by rw [hscopes]⟩

theorem refl (name : String) (s : Session) : SameReading name s s :=
  of_scopes rfl rfl

theorem trans (hst : SameReading name s t) (htu : SameReading name t u) : SameReading name s u :=
  ⟨htu.homes.trans hst.homes, htu.shape.trans hst.shape, fun n => (htu.vars n).trans (hst.vars n)⟩

theorem modifyVars {f : Vars → Vars} (hf : ∀ vars, (f vars).get? name = vars.get? name)
    (s : Session) (n : Nat) :
    SameReading name s { s with scopes := s.scopes.modifyVars n f } :=
  ⟨rfl, Scopes.shape_modifyVars n f, Scopes.get?_vars_modifyVars hf n⟩

theorem setLocal {other : String} (hne : name ≠ other) (s : Session) (n : Nat)
    (value : Json.Value) :
    SameReading name s { s with scopes := s.scopes.setLocal n other value } :=
  modifyVars (fun vars => by rw [SortedMap.get?_insert, if_neg hne]) s n

end SameReading

section Effects

variable {σ : Type} {name : String} {r s : Run σ}

/-- Content writes no variable but those it may. -/
theorem Performs.sameReading {writable : String → Prop} (hname : ¬ writable name)
    (h : Performs writable r s) : SameReading name r.session s.session := by
  induction h with
  | trans _ _ hrs hst => exact hrs.trans hst
  | @write r n other _ hother value =>
    refine .setLocal ?_ r.session n value
    rintro rfl
    exact hname hother
  | _ => exact .of_scopes rfl rfl

theorem Marks.sameReading {known : Nat → Prop} (h : Marks known r s) :
    SameReading name r.session s.session := by
  induction h with
  | trans _ _ hrs hst => exact hrs.trans hst
  | _ => exact .of_scopes rfl rfl

theorem Reports.sameReading (h : Reports r s) : SameReading name r.session s.session := by
  rw [h.notes.session]
  exact .refl name _

/-- Steps of a fold, one after the other. -/
theorem SameReading.foldl {α : Type} {f : Run σ → α → Run σ}
    (h : ∀ r x, SameReading name r.session (f r x).session) (xs : List α) (r : Run σ) :
    SameReading name r.session (xs.foldl f r).session := by
  induction xs generalizing r with
  | nil => exact .refl name _
  | cons x rest ih => exact (h r x).trans (ih (f r x))

end Effects

namespace Interpreter

variable {σ : Type} (m : Interpreter σ) {name : String}

section Content

variable (hname : ¬ Unreserved name)

include hname

theorem sameReading_startInvoke (s : Nat) (i : Invoke) (r : Run σ) :
    SameReading name r.session (m.startInvoke s i r).session := by
  obtain ⟨t, request, reply, hask, hanswered⟩ := m.startInvoke_spec s i r
  have hnote : SameReading name t.session (t.note (.startInvoke request reply)).session :=
    .of_scopes rfl rfl
  have hasked := (hask.sameReading hname).trans hnote
  rcases hanswered with ⟨-, heq⟩ | ⟨-, hrefused⟩
  · rw [heq]
    exact hasked.trans (.of_scopes rfl rfl)
  · exact hasked.trans (hrefused.sameReading hname)

theorem sameReading_startInvokes (r : Run σ) :
    SameReading name r.session (m.startInvokes r).session := by
  have hforget : SameReading name r.session { r.session with pendingInvokes := ∅ } :=
    .of_scopes rfl rfl
  refine hforget.trans (.foldl ?_ _ (r.mapSession fun session =>
    { session with pendingInvokes := ∅ }))
  intro r s
  split
  · exact .foldl (fun r i => m.sameReading_startInvoke hname s i r) _ r
  · exact .refl name _

theorem sameReading_cancelInvokes (s : Nat) (r : Run σ) :
    SameReading name r.session (m.cancelInvokes s r).session := by
  unfold cancelInvokes
  split
  · exact .refl name _
  · next ids _ =>
    have hdrop : SameReading name r.session
        { r.session with invokes := r.session.invokes.erase s } := .of_scopes rfl rfl
    refine hdrop.trans (.foldl ?_ ids (r.mapSession fun session =>
      { session with invokes := session.invokes.erase s }))
    intro r invokeId
    obtain ⟨t, reply, hask, hanswered⟩ := m.cancelInvoke_spec s invokeId r
    have hnote : SameReading name t.session (t.note (.cancelInvoke invokeId reply)).session :=
      .of_scopes rfl rfl
    exact ((hask.sameReading hname).trans hnote).trans (hanswered.sameReading hname)

theorem sameReading_leave (s : Nat) (r : Run σ) :
    SameReading name r.session (m.leave s r).session := by
  obtain ⟨t, hcontent, hmarks⟩ : ∃ t, Performs Unreserved r t ∧
      Marks (fun _ => True) (m.cancelInvokes s t) (m.leave s r) := m.parts_leave s r
  exact ((hcontent.sameReading hname).trans (m.sameReading_cancelInvokes hname s t)).trans
    hmarks.sameReading

theorem sameReading_enter (step : Step) (s : Nat) (r : Run σ) :
    SameReading name r.session (m.enter step s r).session := by
  obtain ⟨t, hcontent, hmarks⟩ : ∃ t, Performs Unreserved (r.mapSession (·.withdraw s)) t ∧
      Marks (fun _ => True) t (m.enter step s r) := m.parts_enter (fun _ => trivial) step trivial r
  have hwithdraw : SameReading name r.session (r.session.withdraw s) := .of_scopes rfl rfl
  exact (hwithdraw.trans (hcontent.sameReading hname)).trans hmarks.sameReading

theorem sameReading_runContent (step : Step) (r : Run σ) :
    SameReading name r.session (m.runContent step r).session :=
  ((SameReading.foldl (fun r s => m.sameReading_leave hname s r) step.exitList r).trans
    (.foldl (fun r t => (m.performs_fire t r).sameReading hname) step.transitions _)).trans
      (.foldl (fun r s => m.sameReading_enter hname step s r) step.entryList _)

end Content

end Interpreter

/-- Where the questions are asked, the scopes hold the same of the variable `name` as in
`session`. -/
def AskedWith {σ : Type} (name : String) (session : Session) (questions : List (Question σ)) :
    Prop :=
  ∀ q ∈ questions, SameReading name session q.run.session

namespace AskedWith

variable {σ : Type} {name : String} {s t : Session} {xs ys : List (Question σ)}

theorem nil : AskedWith name s ([] : List (Question σ)) :=
  fun _ hq => nomatch hq

theorem cons {q : Question σ} (hq : SameReading name s q.run.session) (hxs : AskedWith name s xs) :
    AskedWith name s (q :: xs) :=
  List.forall_mem_cons.2 ⟨hq, hxs⟩

theorem append (hxs : AskedWith name s xs) (hys : AskedWith name s ys) :
    AskedWith name s (xs ++ ys) :=
  List.forall_mem_append.2 ⟨hxs, hys⟩

theorem after (hst : SameReading name s t) (h : AskedWith name t xs) : AskedWith name s xs :=
  fun q hq => hst.trans (h q hq)

theorem along {α : Type} {ask : α → Run σ → List (Question σ)} {act : Run σ → α → Run σ}
    (hask : ∀ x r, AskedWith name r.session (ask x r))
    (hact : ∀ r x, SameReading name r.session (act r x).session) (xs : List α) (r : Run σ) :
    AskedWith name r.session (Interpreter.questionsAlong ask act xs r) := by
  induction xs generalizing r with
  | nil => exact .nil
  | cons x rest ih => exact (hask x r).append ((ih (act r x)).after (hact r x))

end AskedWith

namespace Interpreter

variable {σ : Type} (m : Interpreter σ) {name : String}

mutual

theorem askedWith_actionQuestions (hname : ¬ Unreserved name) (owner : Nat) (action : Action)
    (r : Run σ) : AskedWith name r.session (m.actionQuestions owner action r) := by
  match action with
  | .assign _ _ | .declare _ _ | .log _ _ | .raise _ | .send _ | .cancel _ =>
    simp only [actionQuestions]
    exact .nil
  | .choose branches otherwise =>
    rw [actionQuestions]
    refine (askedWith_branchQuestions hname owner branches r).append ?_
    split
    · exact .nil
    · exact askedWith_actionsQuestions hname owner otherwise r

theorem askedWith_actionsQuestions (hname : ¬ Unreserved name) (owner : Nat)
    (actions : List Action) (r : Run σ) :
    AskedWith name r.session (m.actionsQuestions owner actions r) := by
  match actions with
  | [] =>
    rw [actionsQuestions]
    exact .nil
  | action :: rest =>
    have haction := (m.performs_perform owner action r).sameReading hname
    rw [actionsQuestions]
    refine (askedWith_actionQuestions hname owner action r).append ?_
    split
    · next s hs =>
      rw [hs] at haction
      exact (askedWith_actionsQuestions hname owner rest s).after haction
    · exact .nil

theorem askedWith_branchQuestions (hname : ¬ Unreserved name) (owner : Nat)
    (branches : List Branch) (r : Run σ) :
    AskedWith name r.session (m.branchQuestions owner branches r) := by
  match branches with
  | [] =>
    rw [branchQuestions]
    exact .nil
  | .mk condition actions :: rest =>
    rw [branchQuestions]
    refine .cons (.refl name _) ?_
    split
    · exact .nil
    · exact askedWith_actionsQuestions hname owner actions r
    · exact askedWith_branchQuestions hname owner rest r

end

section Questions

variable (hname : ¬ Unreserved name)

include hname

theorem askedWith_blockQuestions (block : Block) (owner : Nat) (actions : List Action)
    (r : Run σ) : AskedWith name r.session (m.blockQuestions block owner actions r) :=
  m.askedWith_actionsQuestions hname owner actions (r.note (.began block))

theorem sameReading_runInitial (step : Step) (s : Nat) (r : Run σ) :
    SameReading name r.session (m.runInitial step s r).session := by
  unfold runInitial
  split
  · split
    · exact (m.performs_runBlock _ _ _ r).sameReading hname
    · exact .refl name _
  · exact .refl name _

theorem askedWith_initialQuestions (step : Step) (s : Nat) (r : Run σ) :
    AskedWith name r.session (m.initialQuestions step s r) := by
  unfold initialQuestions
  split
  · split
    · exact m.askedWith_blockQuestions hname _ _ _ r
    · exact .nil
  · exact .nil

theorem sameReading_runHistory (step : Step) (s x : Nat) (r : Run σ) :
    SameReading name r.session (m.runHistory step s r x).session := by
  unfold runHistory
  split
  · exact (m.performs_runBlock _ _ _ r).sameReading hname
  · exact .refl name _

theorem askedWith_historyQuestions (step : Step) (s x : Nat) (r : Run σ) :
    AskedWith name r.session (m.historyQuestions step s x r) := by
  unfold historyQuestions
  split
  · exact m.askedWith_blockQuestions hname _ _ _ r
  · exact .nil

theorem askedWith_defaultsQuestions (step : Step) (s : Nat) (r : Run σ) :
    AskedWith name r.session (m.defaultsQuestions step s r) :=
  (m.askedWith_initialQuestions hname step s r).append
    ((AskedWith.along (m.askedWith_historyQuestions hname step s)
      (fun r x => m.sameReading_runHistory hname step s x r) _ _).after
        (m.sameReading_runInitial hname step s r))

theorem askedWith_enterQuestions (step : Step) (s : Nat) (r : Run σ) :
    AskedWith name r.session (m.enterQuestions step s r) := by
  have hwithdraw : SameReading name r.session (r.session.withdraw s) := .of_scopes rfl rfl
  have hentry := (m.performs_runBlock (.entry s) s (m.chart.node s).onEntry
    (r.mapSession (·.withdraw s))).sameReading hname
  refine .append (.after hwithdraw ?_) (.after (hwithdraw.trans hentry) ?_)
  · exact m.askedWith_blockQuestions hname _ s _ _
  · exact m.askedWith_defaultsQuestions hname step s _

theorem askedWith_contentQuestions (step : Step) (r : Run σ) :
    AskedWith name r.session (m.contentQuestions step r) := by
  have hleft := SameReading.foldl (fun r s => m.sameReading_leave hname s r) step.exitList r
  have hfired := hleft.trans (.foldl (fun r t => (m.performs_fire t r).sameReading hname)
    step.transitions _)
  refine .append (.append ?_ (.after hleft ?_)) (.after hfired ?_)
  · exact .along (fun s => m.askedWith_blockQuestions hname _ s _)
      (fun r s => m.sameReading_leave hname s r) step.exitList r
  · exact .along (fun t => m.askedWith_blockQuestions hname _ _ _)
      (fun r t => (m.performs_fire t r).sameReading hname) step.transitions _
  · exact .along (m.askedWith_enterQuestions hname step)
      (fun r s => m.sameReading_enter hname step s r) step.entryList _

theorem askedWith_planQuestions (plan : Plan) (step : Step) {prepare : Run σ → Run σ}
    (hprepare : ∀ r, SameReading name r.session (prepare r).session) (r : Run σ) :
    AskedWith name r.session (m.planQuestions plan step prepare r) := by
  have happroved := m.session_approve plan r
  unfold planQuestions
  split
  · exact .nil
  · next s hs =>
    rw [hs] at happroved
    rw [← happroved]
    exact (m.askedWith_contentQuestions hname _ _).after (hprepare s)

omit hname in
theorem askedWith_firstQuestions (transitions : List Nat) (verdicts : Verdicts) (r : Run σ) :
    AskedWith name r.session (m.firstQuestions transitions verdicts r) := by
  induction transitions generalizing verdicts r with
  | nil => exact .nil
  | cons t rest ih =>
    have hguard : SameReading name r.session (m.guardHolds t r).2.session :=
      (m.performs_guardHolds t r : Performs (fun _ => False) _ _).sameReading id
    unfold firstQuestions
    split
    · exact .nil
    · exact ih verdicts r
    · refine .append ?_ ?_
      · unfold guardQuestions
        split
        · exact .nil
        · exact .cons (.refl name _) .nil
      · split
        · exact .nil
        · exact (ih _ _).after hguard

omit hname in
theorem askedWith_enabledQuestions (candidates : List Candidate) (verdicts : Verdicts)
    (r : Run σ) : AskedWith name r.session (m.enabledQuestions candidates verdicts r) := by
  induction candidates generalizing verdicts r with
  | nil => exact .nil
  | cons candidate rest ih =>
    have hfirst : Performs (fun _ => False) r
        (m.firstEnabled candidate.transitions verdicts r).2.2 :=
      m.performs_firstEnabled candidate.transitions verdicts r
    exact (m.askedWith_firstQuestions candidate.transitions verdicts r).append
      ((ih _ _).after (hfirst.sameReading id))

theorem askedWith_startQuestions (r : Run σ) :
    AskedWith name r.session (m.startQuestions r) := by
  unfold startQuestions
  split
  · exact .nil
  · exact m.askedWith_planQuestions hname _ _ (fun r => .refl name _) r

/-- Where a microstep evaluates a condition, a variable that content may not write holds what it
held when the event was bound. -/
theorem askedWith_microstepQuestions (event : Option Event) (r : Run σ) :
    AskedWith name (r.session.bindEvent event) (m.microstepQuestions event r) := by
  have hselect : ∀ candidates active, SameReading name (r.session.bindEvent event)
      (m.select candidates active (r.mapSession (·.bindEvent event))).2.session :=
    fun candidates active => (m.performs_select candidates active _ :
      Performs (fun _ => False) (r.mapSession (·.bindEvent event)) _).sameReading id
  refine .append (m.askedWith_enabledQuestions _ _ _) ?_
  split
  · exact .nil
  · refine .after (hselect _ _) (m.askedWith_planQuestions hname _ _ ?_ _)
    intro r
    exact .of_scopes rfl rfl

end Questions

end Interpreter

theorem View.isMember_of_listed {view : View} {ids : List String}
    (h : view.get? SystemVariable.allStates = some (.list (ids.map .text))) (id : String) :
    view.isMember id = decide (id ∈ ids) := by
  simp only [View.isMember, h]
  rw [Bool.eq_iff_iff]
  simp

namespace Session

/-- The ids of the active states without children and of the states above them. -/
def activeIds (c : Chart) (session : Session) : List String :=
  c.idsOf (c.closure (session.configuration.atomic c).members).members

/-- No scope but that of the system holds a variable with the name of the one that lists the active
states. -/
structure Shielded (c : Chart) (shared : Bool) (session : Session) : Prop where
  homes : session.homes = (stage c shared).1
  shape : session.scopes.shape = (stage c shared).2.shape
  vars : ∀ n, n ≠ systemScope → (session.scopes.vars n).get? SystemVariable.allStates = none

/-- And the scope of the system lists them as they are. -/
structure Frank (c : Chart) (shared : Bool) (session : Session) : Prop
    extends Shielded c shared session where
  listed : (session.scopes.vars systemScope).get? SystemVariable.allStates =
    some (.list ((session.activeIds c).map .text))

variable {c : Chart} {shared : Bool} {s t : Session}

theorem Shielded.sameReading (h : s.Shielded c shared)
    (hst : SameReading SystemVariable.allStates s t) : t.Shielded c shared where
  homes := hst.homes.trans h.homes
  shape := hst.shape.trans h.shape
  vars n hn := (hst.vars n).trans (h.vars n hn)

theorem Frank.sameReading (h : s.Frank c shared)
    (hst : SameReading SystemVariable.allStates s t) (hconf : t.configuration = s.configuration) :
    t.Frank c shared where
  toShielded := h.toShielded.sameReading hst
  listed := by
    rw [hst.vars systemScope, h.listed, activeIds, activeIds, hconf]

/-- From every state the variable is read in the scope of the system. -/
theorem Shielded.get?_view (h : s.Shielded c shared) (x : Nat) :
    (s.view c x).get? SystemVariable.allStates =
      (s.scopes.vars systemScope).get? SystemVariable.allStates := by
  have hstaged := staged_stage c shared
  have hlength : s.scopes.frames.length = (stage c shared).2.frames.length := by
    rw [← Scopes.length_shape, h.shape, Scopes.length_shape]
  have hscope : s.scopeOf c x < s.scopes.frames.length := by
    rw [hlength]
    rcases s.scopeOf_cases c x with hglobal | ⟨y, hy⟩
    · rw [hglobal]
      exact hstaged.two_le_length
    · rw [h.homes] at hy
      exact hstaged.lt_length hy
  exact ((rooted_stage c shared).of_shape h.shape).get?_eq hscope h.vars

/-- A session that publishes lists the states as they are. -/
theorem Shielded.publish (h : s.Shielded c shared) : (s.publish c).Frank c shared where
  homes := h.homes
  shape := (Scopes.shape_setLocal _ _ _).trans h.shape
  vars n hn := by
    change ((s.scopes.modifyVars systemScope _).vars n).get? SystemVariable.allStates = none
    rw [Scopes.vars_modifyVars_of_ne hn]
    exact h.vars n hn
  listed := by
    have hsystem : systemScope < s.scopes.frames.length := by
      rw [← Scopes.length_shape, h.shape, Scopes.length_shape]
      exact Nat.lt_of_lt_of_le (by decide) (staged_stage c shared).two_le_length
    simp only [Session.publish]
    rw [Scopes.vars_setLocal hsystem, if_pos rfl, SortedMap.get?_insert, if_pos rfl]
    rfl

theorem sameReading_bindEvent (event : Option Event) :
    SameReading SystemVariable.allStates s (s.bindEvent event) := by
  have hne : SystemVariable.allStates ≠ SystemVariable.event := by decide
  cases event with
  | some e => exact .setLocal hne s _ _
  | none => exact .modifyVars (fun vars => by rw [SortedMap.get?_erase, if_neg hne]) s _

theorem shielded_fresh (c : Chart) (shared : Bool) (id : SessionId) :
    (fresh c shared id).Shielded c shared where
  homes := homes_fresh c shared id
  shape := shape_fresh c shared id
  vars n hn := by
    rw [vars_fresh, if_neg hn]
    rfl

end Session

namespace Interpreter

variable {σ : Type} {m : Interpreter σ}

def ShieldedRun (m : Interpreter σ) (r : Run σ) : Prop :=
  r.session.Shielded m.chart m.evaluator.sharesContext

def FrankRun (m : Interpreter σ) (r : Run σ) : Prop :=
  r.session.Frank m.chart m.evaluator.sharesContext

/-- A session that does not run need not list the active states as they are. -/
def FrankWhenRunning (m : Interpreter σ) (r : Run σ) : Prop :=
  r.session.running = true → m.FrankRun r

theorem not_unreserved_allStates : ¬ Unreserved SystemVariable.allStates := by
  simp [Unreserved, isSystemVariable]

theorem frank_carryOut {r : Run σ} (h : m.ShieldedRun r) (step : Step) :
    Leaves m.FrankRun (fun _ _ => True) (m.carryOut step r) := by
  have hcontent : m.ShieldedRun (m.runContent step r) :=
    h.sameReading (m.sameReading_runContent not_unreserved_allStates step r)
  unfold carryOut moveConfiguration
  split
  · trivial
  · next conf _ =>
    have hmoved : ({ (m.runContent step r).session with configuration := conf } :
        Session).Shielded m.chart m.evaluator.sharesContext :=
      hcontent.sameReading (.of_scopes rfl rfl)
    exact hmoved.publish

theorem frank_microstep {r : Run σ} (h : m.FrankRun r) (event : Option Event) :
    Leaves m.FrankRun (fun _ _ => True) (m.microstep event r) := by
  have hbound : m.FrankRun (r.mapSession (·.bindEvent event)) :=
    h.sameReading (Session.sameReading_bindEvent event) rfl
  have hselected : m.FrankRun (m.selectFor event r).2 := by
    have hperforms : Performs (fun _ => False) (r.mapSession (·.bindEvent event))
      (m.selectFor event r).2 := m.performs_select _ _ _
    exact hbound.sameReading (hperforms.sameReading id) hperforms.acts.configuration
  refine leaves_microstep event hselected (fun _ _ => trivial) ?_
  intro ts s t step _ hs hreports
  have hrecorded : m.ShieldedRun (m.recordFor (m.planFor ts s) t) :=
    (hs.toShielded.sameReading hreports.sameReading).sameReading (.of_scopes rfl rfl)
  exact frank_carryOut hrecorded _

theorem frank_initialStep {r : Run σ} (h : m.ShieldedRun r) :
    Leaves m.FrankRun (fun _ _ => True) (m.initialStep r) := by
  have hreported : ∀ {t}, Reports r t → m.ShieldedRun t :=
    fun hreports => h.sameReading hreports.sameReading
  exact leaves_initialStep (fun _ => trivial)
    (fun hreports => frank_carryOut (hreported hreports) _)
    (fun hreports => frank_carryOut (hreported hreports) _)

/-- A reset lists the active states as they are, if no data declares a variable of that name. -/
theorem frank_reset (hdata : ¬ m.chart.Declares SystemVariable.allStates) (r : Run σ) :
    m.FrankRun (m.reset r) := by
  have hfresh : m.ShieldedRun (m.clear r) := Session.shielded_fresh _ _ _
  have hinitialized :=
    hfresh.sameReading ((m.performs_initializeData (m.clear r)).sameReading hdata)
  exact hinitialized.publish

theorem frank_stop (r : Run σ) : m.FrankWhenRunning (m.stop r) :=
  fun hrunning => nomatch hrunning

theorem lasts_frank (hdata : ¬ m.chart.Declares SystemVariable.allStates) :
    m.Lasts m.FrankRun (fun _ _ => True) m.FrankWhenRunning where
  microstep event h := frank_microstep h event
  take {r s e} h htake := by
    unfold takeInternal at htake
    split at htake
    · cases htake
    · obtain ⟨-, rfl⟩ := Prod.mk.inj (Option.some.inj htake)
      exact h.sameReading (.of_scopes rfl rfl) rfl
  startInvokes {r} h :=
    h.sameReading (m.sameReading_startInvokes not_unreserved_allStates r)
      (m.acts_startInvokes r).configuration
  settled {r} h := by
    have hpublished : m.FrankRun (r.mapSession Session.publishPending) :=
      h.sameReading (.of_scopes rfl rfl) rfl
    unfold settled
    dsimp only
    split
    · exact frank_stop _
    · exact fun _ => hpublished
  exhausted _ hrunning := nomatch hrunning
  fail _ := frank_stop _
  start {r} h :=
    frank_initialStep ((frank_reset hdata r).toShielded.sameReading (.of_scopes rfl rfl))
  running h hrunning := h hrunning
  reset {r} _ _ := frank_reset hdata r
  stop {r} _ := frank_stop r

theorem frank_new (m : Interpreter σ) (id : SessionId) (world : σ) :
    m.FrankWhenRunning (.new id world) :=
  fun hrunning => nomatch hrunning

/-- Where a microstep evaluates a condition, every state is told of the states that were active
when it began. -/
theorem listed_attemptQuestions {attempt : Attempt σ} (h : m.FrankRun attempt.before) :
    ∀ q ∈ m.attemptQuestions attempt, ∀ s,
      (m.viewOf q.run s).get? SystemVariable.allStates =
        some (.list ((attempt.before.session.activeIds m.chart).map .text)) := by
  have hread : ∀ {t : Session},
      SameReading SystemVariable.allStates attempt.before.session t → ∀ s,
        (t.view m.chart s).get? SystemVariable.allStates =
          some (.list ((attempt.before.session.activeIds m.chart).map .text)) := by
    intro t hsame s
    rw [(h.toShielded.sameReading hsame).get?_view, hsame.vars, h.listed]
  intro q hq s
  cases attempt with
  | start r => exact hread (m.askedWith_startQuestions not_unreserved_allStates r q hq) s
  | step event r =>
    exact hread ((Session.sameReading_bindEvent event).trans
      (m.askedWith_microstepQuestions not_unreserved_allStates event r q hq)) s

/-- Wherever a condition is evaluated in the course of an operation, every state reads in the
variable of the active states which states were active when the microstep began, those without
children and those above them, and the `In` predicate tells of every id whether one of them has it.
Of a chart that can be run safely these are the active states. -/
theorem membership_told {o : Outline} (hbuild : o.build = .ok m.chart)
    (hdata : ¬ m.chart.Declares SystemVariable.allStates) (id : SessionId) (world : σ)
    (operations : List Operation) (operation : Operation) :
    let r := m.operateAll operations (Run.new id world)
    ∀ attempt ∈ m.operateAttempts operation r, ∀ q ∈ m.attemptQuestions attempt, ∀ s : Nat,
      let conf := attempt.before.session.configuration
      let ids := m.chart.idsOf (m.chart.closure (conf.atomic m.chart).members).members
      (m.viewOf q.run s).get? SystemVariable.allStates = some (.list (ids.map .text)) ∧
        (∀ name, Evaluator.minimal.holds (m.viewOf q.run s) (inPredicate name) =
          .ok (decide (name ∈ ids))) ∧
        (m.chart.Plain → m.chart.DefaultsCompatible →
          ids = m.chart.idsOf conf.active.members) := by
  intro r attempt hattempt q hq s conf ids
  have hfrank : m.FrankRun attempt.before := by
    rcases (lasts_frank hdata).before_operateAttempts operation
      ((lasts_frank hdata).operateAll operations (m.frank_new id world)) attempt hattempt with
      hready | hfrank
    · rw [hready]
      exact (frank_reset hdata r).sameReading (.of_scopes rfl rfl) rfl
    · exact hfrank
  have hlisted := listed_attemptQuestions hfrank q hq s
  refine ⟨hlisted, fun name => ?_, fun hp hd => ?_⟩
  · rw [Evaluator.holds_inPredicate, View.isMember_of_listed hlisted]
    rfl
  obtain ⟨hw, hc⟩ := Outline.wellFormed_of_build hbuild
  have hinvariant := invariant_steady hw hc hp (hd.joined hw) (Run.new id world)
  have hlegal : m.chart.Legal conf.active := by
    rcases hinvariant.lasts.before_operateAttempts operation
      (hinvariant.operateAll operations (m.regular_new id world).steady) attempt hattempt with
      hready | hsteady
    · have hempty : conf = .empty :=
        (congrArg (fun r : Run σ => r.session.configuration) hready).trans (m.cleared_reset r).1
      rw [hempty]
      exact Chart.legal_empty
    · exact hsteady.legal
  have hclosed : m.chart.closure (conf.atomic m.chart).members = conf.active :=
    hw.closure_of_legal hlegal
  change m.chart.idsOf (m.chart.closure (conf.atomic m.chart).members).members = _
  rw [hclosed]

end Interpreter

/-- A gate that goes up from where it is down, with the given data. -/
def Outline.gate (data : List Data) : Outline where
  name := none
  datamodel := none
  initial := []
  states := [
    .mk (.named "down" .plain [] [⟨["lift"], some "In('down')", ["up"], .external, []⟩]) [],
    .mk (.named "up" .plain [] []) []]
  data := data

theorem Outline.build_gate (data : List Data) :
    (Outline.gate data).build = .ok (Outline.gate data).chart := by
  -- What is placed and what is checked does not depend on the data.
  have hplacement : (Outline.gate []).placementProblems = [] := by decide +kernel
  have hproblems : (Outline.gate []).chart.problems = [] := by decide +kernel
  exact build_eq_ok rfl hplacement hproblems

namespace Interpreter

def gatekeeper (data : List Data) : Interpreter Unit :=
  ⟨(Outline.gate data).chart, .minimal, .silent, .default⟩

def gateRun (data : List Data) : Run Unit :=
  (gatekeeper data).operateAll [.go] (Run.new secondId ())

theorem lift_mem_operateAttempts (data : List Data)
    (hrunning : (gateRun data).session.running = true) :
    .step (some (.signal "lift")) (gateRun data) ∈
      (gatekeeper data).operateAttempts (.trigger (.signal "lift")) (gateRun data) := by
  simp [operateAttempts, hrunning, Event.signal, Event.plain]

/-- When the gate is lifted a guard is evaluated, and it is told that the gate is down. -/
theorem membership_told_gate :
    ((gatekeeper []).microstepQuestions (some (.signal "lift")) (gateRun [])).length = 1 ∧
      ∀ q ∈ (gatekeeper []).microstepQuestions (some (.signal "lift")) (gateRun []),
        Evaluator.minimal.holds ((gatekeeper []).viewOf q.run q.owner) (inPredicate "down") =
          .ok true := by
  refine ⟨by decide +kernel, fun q hq => ?_⟩
  have hdata : ¬ (gatekeeper []).chart.Declares SystemVariable.allStates := by
    rintro (⟨d, hd, -⟩ | ⟨s, d, hd, -⟩)
    · cases hd
    · match s with
      | 0 | 1 | _ + 2 => cases hd
  have hplain : (gatekeeper []).chart.Plain :=
    ⟨by decide +kernel, by decide +kernel, by decide +kernel⟩
  have hdefaults : (gatekeeper []).chart.DefaultsCompatible := by
    unfold Chart.DefaultsCompatible
    decide +kernel
  obtain ⟨-, hanswer, hids⟩ := membership_told (m := gatekeeper []) (Outline.build_gate []) hdata
    secondId () [.go] (.trigger (.signal "lift")) _
    (lift_mem_operateAttempts [] (by decide +kernel)) q hq q.owner
  have hactive : decide ("down" ∈ (gatekeeper []).chart.idsOf
      (gateRun []).session.configuration.active.members) = true := by decide +kernel
  rw [hanswer "down", hids hplain hdefaults]
  exact congrArg Except.ok hactive

/-- Data with the name of the variable that lists the active states. -/
def veil : List Data :=
  [⟨SystemVariable.allStates, none, some .null⟩]

theorem exists_denied_veiled :
    ∃ q ∈ (gatekeeper veil).microstepQuestions (some (.signal "lift")) (gateRun veil),
      Evaluator.minimal.holds ((gatekeeper veil).viewOf q.run q.owner) (inPredicate "down") =
        .ok false := by
  have hanswers : ((gatekeeper veil).microstepQuestions (some (.signal "lift"))
      (gateRun veil)).map (fun q => Evaluator.minimal.holds
        ((gatekeeper veil).viewOf q.run q.owner) (inPredicate "down")) = [.ok false] := by
    decide +kernel
  apply List.mem_map.1
  rw [hanswers]
  exact List.mem_singleton.2 rfl

/-- The data of a chart declares a variable with the name of the one that lists the active states:
the guard is told that the gate is not down. -/
theorem exists_membership_denied : ¬ ∀ (o : Outline) (m : Interpreter Unit),
    o.build = .ok m.chart → ∀ (id : SessionId) (operations : List Operation)
      (operation : Operation),
      (∀ other ∈ operation :: operations, other = .go ∨ ∃ event, other = .trigger event) →
      let r := m.operateAll operations (Run.new id ())
      ∀ attempt ∈ m.operateAttempts operation r, ∀ q ∈ m.attemptQuestions attempt,
        ∀ name : String,
          Evaluator.minimal.holds (m.viewOf q.run q.owner) (inPredicate name) =
            .ok (decide (name ∈
              m.chart.idsOf attempt.before.session.configuration.active.members)) := by
  intro h
  obtain ⟨q, hq, hdenied⟩ := exists_denied_veiled
  have hallowed : ∀ other ∈ [Operation.trigger (.signal "lift"), .go],
      other = .go ∨ ∃ event, other = .trigger event := by simp
  have htold := h _ (gatekeeper veil) (Outline.build_gate veil) secondId [.go]
    (.trigger (.signal "lift")) hallowed _ (lift_mem_operateAttempts veil (by decide +kernel))
    q hq "down"
  have hinactive := hdenied.symm.trans htold
  have hactive : decide ("down" ∈ (gatekeeper veil).chart.idsOf
      (gateRun veil).session.configuration.active.members) = true := by decide +kernel
  exact absurd (hactive.symm.trans (Except.ok.inj hinactive).symm) (by decide)

end Interpreter

end Statechart
