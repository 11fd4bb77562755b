import Statechart.Proofs.Courses

/-!
Macrosteps settle. Internal events are handed to microsteps in the order in which they were
raised, none is lost and none is handed over twice; and a session that still runs after a
macrostep has nothing left to do.
-/

namespace Statechart

variable {σ : Type}

namespace Interpreter

variable (m : Interpreter σ)

theorem session_guardHolds (t : Nat) (r : Run σ) : (m.guardHolds t r).2.session = r.session := by
  unfold guardHolds
  dsimp only
  split
  · rfl
  · split <;> rfl

theorem session_firstEnabled (transitions : List Nat) (verdicts : Verdicts) (r : Run σ) :
    (m.firstEnabled transitions verdicts r).2.2.session = r.session := by
  induction transitions generalizing verdicts r with
  | nil => rfl
  | cons t rest ih =>
    unfold firstEnabled
    split
    · rfl
    · exact ih verdicts r
    · dsimp only
      split
      · exact m.session_guardHolds t r
      · exact (ih _ _).trans (m.session_guardHolds t r)

theorem session_enabled (candidates : List Candidate) (verdicts : Verdicts) (r : Run σ) :
    (m.enabled candidates verdicts r).2.session = r.session := by
  induction candidates generalizing verdicts r with
  | nil => rfl
  | cons candidate rest ih =>
    unfold enabled
    dsimp only
    split
    · exact (ih _ _).trans (m.session_firstEnabled _ _ _)
    · exact (ih _ _).trans (m.session_firstEnabled _ _ _)

theorem session_dropConflicts (active : StateSet) (kept : List (Nat × StateSet))
    (transitions : List Nat) (r : Run σ) :
    (m.dropConflicts active kept transitions r).2.session = r.session := by
  induction transitions generalizing kept r with
  | nil => rfl
  | cons t rest ih =>
    unfold dropConflicts
    dsimp only
    split
    · exact ih kept _
    · exact ih _ r

/-- Selection reports and notes, and leaves the session as it is. -/
theorem session_select (candidates : List Candidate) (active : StateSet) (r : Run σ) :
    (m.select candidates active r).2.session = r.session :=
  (m.session_dropConflicts active [] _ _).trans (m.session_enabled candidates ∅ r)

/-- All states see the same in both runs. -/
def SameViews (r s : Run σ) : Prop :=
  ∀ x, m.viewOf r x = m.viewOf s x

variable {m} {r s : Run σ}

theorem sameViews_of_eq (hscopes : r.session.scopes = s.session.scopes)
    (hhomes : r.session.homes = s.session.homes) : m.SameViews r s := by
  intro x
  simp [viewOf, Session.view, Session.scopeOf, hscopes, hhomes]

theorem SameViews.of_session {r' s' : Run σ} (h : m.SameViews r s)
    (hr : r'.session = r.session) (hs : s'.session = s.session) : m.SameViews r' s' := by
  intro x
  simpa [viewOf, hr, hs] using h x

theorem SameViews.guardHolds (h : m.SameViews r s) (t : Nat) :
    (m.guardHolds t r).1 = (m.guardHolds t s).1 := by
  unfold Interpreter.guardHolds
  dsimp only
  rw [h]
  split
  · rfl
  · split <;> rfl

theorem SameViews.firstEnabled (h : m.SameViews r s) (transitions : List Nat)
    (verdicts : Verdicts) :
    (m.firstEnabled transitions verdicts r).1 = (m.firstEnabled transitions verdicts s).1 ∧
      (m.firstEnabled transitions verdicts r).2.1 =
        (m.firstEnabled transitions verdicts s).2.1 := by
  induction transitions generalizing verdicts r s with
  | nil => exact ⟨rfl, rfl⟩
  | cons t rest ih =>
    have hguard := h.guardHolds t
    have hnext : m.SameViews (m.guardHolds t r).2 (m.guardHolds t s).2 :=
      h.of_session (m.session_guardHolds t r) (m.session_guardHolds t s)
    unfold Interpreter.firstEnabled
    cases verdicts.get? t with
    | some verdict =>
      cases verdict with
      | true => exact ⟨rfl, rfl⟩
      | false => exact ih h verdicts
    | none =>
      dsimp only
      rw [hguard]
      cases (m.guardHolds t s).1 with
      | true => exact ⟨rfl, rfl⟩
      | false => exact ih hnext _

theorem SameViews.enabled (h : m.SameViews r s) (candidates : List Candidate)
    (verdicts : Verdicts) :
    (m.enabled candidates verdicts r).1 = (m.enabled candidates verdicts s).1 := by
  induction candidates generalizing verdicts r s with
  | nil => rfl
  | cons candidate rest ih =>
    obtain ⟨hfound, hverdicts⟩ := h.firstEnabled candidate.transitions verdicts
    have hnext : m.SameViews (m.firstEnabled candidate.transitions verdicts r).2.2
        (m.firstEnabled candidate.transitions verdicts s).2.2 :=
      h.of_session (m.session_firstEnabled _ _ r) (m.session_firstEnabled _ _ s)
    have hrest := ih hnext (m.firstEnabled candidate.transitions verdicts s).2.1
    unfold Interpreter.enabled
    dsimp only
    rw [hfound, hverdicts]
    cases (m.firstEnabled candidate.transitions verdicts s).1 with
    | none => exact hrest
    | some t =>
      dsimp only
      rw [hrest]

theorem dropConflicts_eq (active : StateSet) (kept : List (Nat × StateSet))
    (transitions : List Nat) (r s : Run σ) :
    (m.dropConflicts active kept transitions r).1 =
      (m.dropConflicts active kept transitions s).1 := by
  induction transitions generalizing kept r s with
  | nil => rfl
  | cons t rest ih =>
    unfold dropConflicts
    dsimp only
    split
    · exact ih kept _ _
    · exact ih _ r s

theorem SameViews.select (h : m.SameViews r s) (candidates : List Candidate)
    (active : StateSet) :
    (m.select candidates active r).1 = (m.select candidates active s).1 := by
  unfold Interpreter.select
  dsimp only
  rw [h.enabled]
  exact m.dropConflicts_eq _ _ _ _ _

/-- The runs agree in all that decides which transitions fire without event. -/
structure Agree (r s : Run σ) : Prop where
  scopes : (r.session.bindEvent none).scopes = (s.session.bindEvent none).scopes
  homes : r.session.homes = s.session.homes
  states : r.session.status.states = s.session.status.states

theorem Agree.trans {r s t : Run σ} (hrs : Agree r s) (hst : Agree s t) : Agree r t :=
  ⟨hrs.scopes.trans hst.scopes, hrs.homes.trans hst.homes, hrs.states.trans hst.states⟩

theorem Agree.selectFor (h : Agree r s) : (m.selectFor none r).1 = (m.selectFor none s).1 := by
  have hviews : m.SameViews (r.mapSession (·.bindEvent none)) (s.mapSession (·.bindEvent none)) :=
    sameViews_of_eq h.scopes h.homes
  have hselect := hviews.select (m.chart.candidates none r.session.status.states)
    r.session.status.states
  unfold Interpreter.selectFor
  dsimp only [Run.mapSession, Session.bindEvent, Option.map]
  rw [← h.states]
  exact hselect

end Interpreter

theorem Scopes.removeLocal_twice (scopes : Scopes) (n : Nat) (name : String) :
    (scopes.removeLocal n name).removeLocal n name = scopes.removeLocal n name := by
  have herase : ∀ vars : Vars, (vars.erase name).erase name = vars.erase name := by
    intro vars
    simp [SortedMap.erase]
  simp [removeLocal, modifyVars, List.modify_modify_eq, Function.comp_def, herase]

namespace Interpreter

variable {m : Interpreter σ}

theorem scopes_invokeParams (s : Nat) (params : List Param) (r : Run σ) :
    (m.invokeParams s params r).2.session.scopes = r.session.scopes := by
  refine List.foldlRecOn
    (motive := fun out : SortedMap String Json.Value × Run σ =>
      out.2.session.scopes = r.session.scopes) params _ rfl ?_
  rintro ⟨known, r'⟩ hout p _
  dsimp only
  split
  · exact hout
  · exact hout

theorem scopes_startInvoke (s : Nat) (i : Invoke) (r : Run σ) :
    (m.startInvoke s i r).session.scopes = r.session.scopes := by
  unfold startInvoke
  cases i.id with
  | some id =>
    dsimp only
    split
    · exact scopes_invokeParams s i.params r
    · exact scopes_invokeParams s i.params r
  | none =>
    dsimp only
    split
    · exact scopes_invokeParams s i.params _
    · exact scopes_invokeParams s i.params _

theorem scopes_startInvokes (r : Run σ) :
    (m.startInvokes r).session.scopes = r.session.scopes := by
  unfold startInvokes
  refine List.foldlRecOn (motive := fun s : Run σ => s.session.scopes = r.session.scopes)
    _ _ rfl ?_
  intro s hs x _
  split
  · refine List.foldlRecOn (motive := fun s : Run σ => s.session.scopes = r.session.scopes)
      _ _ hs ?_
    intro t ht i _
    exact (scopes_startInvoke x i t).trans ht
  · exact hs

theorem agree_startInvokes (r : Run σ) : Agree (m.startInvokes r) r where
  scopes := by simp [Session.bindEvent, scopes_startInvokes]
  homes := (m.acts_startInvokes r).homes
  states := by rw [(m.acts_startInvokes r).status]

theorem agree_publishPending (r : Run σ) : Agree (r.mapSession Session.publishPending) r :=
  ⟨rfl, rfl, rfl⟩

/-- A microstep that fires nothing changes nothing that decides which transitions fire without
event, but for the event that it binds. -/
theorem agree_selectFor (r : Run σ) : Agree (m.selectFor none r).2 r := by
  have hsession : (m.selectFor none r).2.session = r.session.bindEvent none :=
    m.session_select _ _ _
  refine ⟨?_, ?_, ?_⟩
  · rw [hsession]
    exact Scopes.removeLocal_twice _ _ _
  · rw [hsession]
    rfl
  · rw [hsession]
    rfl

/-- The session has nothing left to do and is not in a final state. -/
structure Rests (m : Interpreter σ) (r : Run σ) : Prop where
  drained : r.session.internal = []
  notFinal : r.session.status.isFinal = false
  disabled : (m.selectFor none r).1 = []

/-- Without event nothing is enabled and no event waits. -/
def Idle (m : Interpreter σ) (r : Run σ) : Prop :=
  (m.selectFor none r).1 = [] ∧ r.session.internal = []

theorem idle_of_round {r s : Run σ} (h : m.round r = .idle s) : m.Idle s := by
  obtain ⟨hselect, hempty⟩ := m.round_idle h
  have hagree := agree_selectFor (m := m) r
  rw [hselect] at hagree
  refine ⟨?_, hempty⟩
  rw [hagree.selectFor, hselect]

theorem rests_settled {r : Run σ} (h : m.Idle r)
    (hrunning : (m.settled r).session.running = true) : m.Rests (m.settled r) := by
  unfold settled at hrunning ⊢
  dsimp only at hrunning ⊢
  split
  · next hfinal =>
    rw [if_pos hfinal] at hrunning
    cases hrunning
  · next hfinal =>
    refine ⟨h.2, by simpa using hfinal, ?_⟩
    rw [(agree_publishPending r).selectFor]
    exact h.1

/-- The loop of a macrostep, by induction on the microsteps that are left: it ends in a session
that rests, or that has been stopped. -/
theorem rests_settle (budget : Nat) {r : Run σ} {summaries : List Summary}
    (h : (m.settle budget r).1 = .ok summaries)
    (hrunning : (m.settle budget r).2.session.running = true) :
    m.Rests (m.settle budget r).2 := by
  induction budget generalizing r summaries with
  | zero => cases hrunning
  | succ budget ih =>
    have hgoOn : ∀ (step : Step) {s : Run σ},
        (m.settle budget s).1.map (m.summaryOf step ++ ·) = .ok summaries →
          (m.settle budget s).2.session.running = true → m.Rests (m.settle budget s).2 := by
      intro step s hs hrunning
      cases hrest : (m.settle budget s).1 with
      | error e => simp [hrest, Except.map] at hs
      | ok rest => exact ih hrest hrunning
    rw [settle] at h hrunning ⊢
    dsimp only at h hrunning ⊢
    cases hround : m.round r with
    | failed e s => simp [hround] at h
    | moved step s =>
      simp only [hround] at h hrunning ⊢
      exact hgoOn step h hrunning
    | idle s =>
      simp only [hround] at h hrunning ⊢
      obtain ⟨hdisabled, -⟩ := idle_of_round hround
      split
      · next hempty =>
        rw [if_pos hempty] at hrunning
        refine rests_settled ⟨?_, List.isEmpty_iff.1 hempty⟩ hrunning
        rw [(agree_startInvokes s).selectFor]
        exact hdisabled
      · next hsome =>
        rw [if_neg hsome] at h hrunning
        cases hagain : m.round (m.startInvokes s) with
        | failed e t => simp [hagain] at h
        | moved step t =>
          simp only [hagain] at h hrunning ⊢
          exact hgoOn step h hrunning
        | idle t =>
          simp only [hagain] at hrunning ⊢
          exact rests_settled (idle_of_round hagain) hrunning

theorem rests_complete {step : Step} {s : Run σ} {summaries : List Summary}
    (h : (m.complete (.ok step, s)).1 = .ok summaries)
    (hrunning : (m.complete (.ok step, s)).2.session.running = true) :
    m.Rests (m.complete (.ok step, s)).2 := by
  unfold complete at h hrunning ⊢
  obtain ⟨rest, t, hsettle⟩ : ∃ rest t, m.settle m.config.maxMicrosteps s = (rest, t) :=
    ⟨_, _, rfl⟩
  cases rest with
  | error e => simp [hsettle, Except.map] at h
  | ok rest =>
    have hrests := rests_settle m.config.maxMicrosteps (congrArg Prod.fst hsettle)
    rw [hsettle] at hrests
    simp only [hsettle, Except.map] at hrunning ⊢
    exact hrests hrunning

/-- A microstep without event fires nothing in a session that rests. -/
theorem Rests.microstep {r : Run σ} (h : m.Rests r) :
    ∃ step s, m.microstep none r = (.ok step, s) ∧ step.transitions = [] := by
  have hnone := h.disabled
  have hstep := m.microstep_spec none r
  generalize m.microstep none r = out at hstep ⊢
  cases hstep with
  | @idle s step hselect hfired _ _ =>
    exact ⟨step, s, rfl, by simpa [Step.hasFired] using hfired⟩
  | refused hselect hne _ =>
    rw [hselect] at hnone
    exact absurd hnone hne
  | fired hselect hne _ _ _ =>
    rw [hselect] at hnone
    exact absurd hnone hne

variable (m) in
theorem posts_carryOut (step : Step) (r : Run σ) : Posts r (m.carryOut step r).2 := by
  have hcontent : Evolves (fun _ => True) r (m.runContent step r) :=
    m.evolves_runContent (fun _ => trivial) (fun _ _ => trivial) r
  refine hcontent.posts.trans ?_
  unfold carryOut moveConfiguration
  split
  · exact .of_eq rfl rfl
  · exact .of_eq rfl rfl

variable (m) in
theorem posts_microstep (event : Option Event) (r : Run σ) :
    Posts r (m.microstep event r).2 := by
  have hbind : Posts r (r.mapSession (·.bindEvent event)) := .of_eq rfl rfl
  have hselected : Posts r (m.selectFor event r).2 :=
    hbind.trans (m.acts_selectFor event r).posts
  refine leaves_iff.1 (leaves_microstep event hselected ?_ ?_)
  · intro s t e hs hreports
    exact hs.trans hreports.notes.posts
  · intro ts s t step _ hs hreports
    have hrecorded : Posts t (m.recordFor (m.planFor ts s) t) := .of_eq rfl rfl
    exact leaves_iff.2 (((hs.trans hreports.notes.posts).trans hrecorded).trans
      (m.posts_carryOut _ _))

variable (m) in
theorem posts_initialStep (r : Run σ) : Posts r (m.initialStep r).2 := by
  have hcarried : ∀ {t : Run σ} (step : Step), Reports r t →
      Leaves (Posts r) (fun _ => Posts r) (m.carryOut step t) :=
    fun step hreports => leaves_iff.2 (hreports.notes.posts.trans (m.posts_carryOut step _))
  exact leaves_iff.1 (leaves_initialStep (fun hreports => hreports.notes.posts) (hcarried _)
    (hcarried _))

/-- The events that waited in `r`, and behind them those raised on the way to `s`, are the
events handed over on the way and behind them those that wait in `s`. -/
def Accounts (r : Run σ) (stages : List (Stage σ)) (s : Run σ) : Prop :=
  ∃ entries, s.journal = entries ++ r.journal ∧
    r.session.internal ++ raisedIn entries = Stage.handed stages ++ s.session.internal

theorem Accounts.of_posts {r s : Run σ} (h : Posts r s) : Accounts r [] s := by
  obtain ⟨entries, hjournal, hinternal⟩ := h
  exact ⟨entries, hjournal, hinternal.symm⟩

theorem Accounts.trans {r s t : Run σ} {xs ys : List (Stage σ)} (hrs : Accounts r xs s)
    (hst : Accounts s ys t) : Accounts r (xs ++ ys) t := by
  obtain ⟨older, hs, holder⟩ := hrs
  obtain ⟨newer, ht, hnewer⟩ := hst
  refine ⟨newer ++ older, by rw [ht, hs, List.append_assoc], ?_⟩
  calc r.session.internal ++ raisedIn (newer ++ older)
      = (r.session.internal ++ raisedIn older) ++ raisedIn newer := by
        rw [raisedIn_append, List.append_assoc]
    _ = Stage.handed xs ++ (s.session.internal ++ raisedIn newer) := by
        rw [holder, List.append_assoc]
    _ = Stage.handed (xs ++ ys) ++ t.session.internal := by
        rw [hnewer, Stage.handed_append, List.append_assoc]

/-- A microstep hands over the event that it is made for, if that is an internal one. -/
theorem accounts_makes {move : Move σ} (h : m.Makes move) :
    Accounts move.before [.moved move] move.after := by
  have hplain : move.cause.internal? = none → Posts move.before move.after →
      Accounts move.before [.moved move] move.after := by
    intro hcause hposts
    obtain ⟨entries, hjournal, hinternal⟩ := hposts
    exact ⟨entries, hjournal, by simp [Stage.handed, Stage.move?, hcause, hinternal]⟩
  unfold Makes at h
  split at h
  · next hcause =>
    have hposts := m.posts_initialStep move.before
    rw [h.2] at hposts
    exact hplain (by rw [hcause]; rfl) hposts
  · next hcause =>
    have hposts := m.posts_microstep none move.before
    rw [h] at hposts
    exact hplain (by rw [hcause]; rfl) hposts
  · next e hcause =>
    obtain ⟨r, htake, h⟩ := h
    obtain ⟨entries, hjournal, hinternal⟩ := m.posts_microstep (some e) r
    rw [h] at hjournal hinternal
    unfold takeInternal at htake
    split at htake
    · cases htake
    · next first rest hwaiting =>
      obtain ⟨rfl, rfl⟩ := Prod.mk.inj (Option.some.inj htake)
      refine ⟨entries ++ [.taken first], ?_, ?_⟩
      · rw [hjournal, List.append_assoc]
        rfl
      · rw [hwaiting, raisedIn_append]
        simp only [Stage.handed, Stage.move?, hcause, Cause.internal?, List.filterMap_cons,
          Option.bind_some, List.filterMap_nil, List.cons_append, List.nil_append]
        rw [hinternal]
        rfl
  · next e hcause =>
    have hposts := m.posts_microstep (some e) move.before
    rw [h] at hposts
    exact hplain (by rw [hcause]; rfl) hposts

/-- As long as the session is not cleared the account is kept. -/
theorem Passes.accounts {r t : Run σ} {stages : List (Stage σ)} (h : m.Passes r stages t)
    (hkept : .cleared ∉ stages) : Accounts r stages t := by
  induction h with
  | done r => exact .of_posts (.refl r)
  | acts h _ ih => exact (Accounts.of_posts h.posts).trans (ih hkept)
  | publishPending _ ih => exact (Accounts.of_posts (.of_eq rfl rfl)).trans (ih hkept)
  | halt _ ih => exact (Accounts.of_posts (.of_eq rfl rfl)).trans (ih hkept)
  | moved h _ _ ih =>
    exact (accounts_makes h).trans (ih (fun hmem => hkept (List.mem_cons_of_mem _ hmem)))
  | reset _ _ => exact absurd (List.mem_cons_self) hkept
  | go _ _ _ => exact absurd (List.mem_cons_self) hkept

variable (m) in
theorem cleared_not_mem_settleCourse (budget : Nat) (r : Run σ) :
    .cleared ∉ m.settleCourse budget r := by
  have hround : ∀ r : Run σ, .cleared ∉ m.roundCourse r := by
    intro r
    unfold roundCourse
    split
    · simp
    · split
      · simp
      · split
        · simp
        · split <;> simp
  induction budget generalizing r with
  | zero => simp [settleCourse]
  | succ budget ih =>
    rw [settleCourse, List.mem_append, not_or]
    refine ⟨hround r, ?_⟩
    split
    · simp
    · exact ih _
    · dsimp only
      split
      · simp
      · rw [List.mem_append, not_or]
        refine ⟨hround _, ?_⟩
        split
        · exact ih _
        · simp

theorem posts_ready (m : Interpreter σ) (r : Run σ) : Posts (m.clear r) (m.ready r) :=
  (m.acts_initializeData (m.clear r)).posts.trans (.of_eq rfl rfl)

/-- The run from which an operation counts: for `go` when the session has been cleared. -/
def outset (m : Interpreter σ) : Operation → Run σ → Run σ
  | .go, r => m.clear r
  | _, r => r

@[simp] theorem internal_outset_go (r : Run σ) : (m.outset .go r).session.internal = [] :=
  rfl

/-- An operation that succeeds and leaves the session running has settled it: no internal event
waits, it is in no final state, and a further microstep without event would fire nothing. The
internal events handed to microsteps are those that waited at the outset and then those raised
since, in order. -/
theorem operate_settles (operation : Operation) (r : Run σ) {summaries : List Summary}
    (hok : (m.operate operation r).1 = .ok summaries)
    (hrunning : (m.operate operation r).2.session.running = true) :
    let s := (m.operate operation r).2
    s.session.internal = [] ∧ s.session.status.isFinal = false ∧
      (∃ step t, m.microstep none s = (.ok step, t) ∧ step.transitions = []) ∧
      ∃ entries, s.journal = entries ++ (m.outset operation r).journal ∧
        Stage.handed (m.operateCourse operation r) =
          (m.outset operation r).session.internal ++ raisedIn entries := by
  intro s
  suffices h : m.Rests s ∧
      Accounts (m.outset operation r) (m.operateCourse operation r) s by
    obtain ⟨hrests, entries, hjournal, haccount⟩ := h
    refine ⟨hrests.drained, hrests.notFinal, hrests.microstep, entries, hjournal, ?_⟩
    rw [haccount, hrests.drained, List.append_nil]
  cases operation with
  | go =>
    obtain ⟨step, t, hfirst⟩ := ok_of_complete (m.initialStep (m.ready r)) hok
    have hs : s = (m.complete (.ok step, t)).2 := by rw [← hfirst]; rfl
    have hcomplete : (m.complete (.ok step, t)).1 = .ok summaries := by rw [← hfirst]; exact hok
    have hmakes : m.Makes ⟨.start, m.ready r, step, t⟩ := ⟨⟨r, rfl⟩, hfirst⟩
    rw [hs]
    refine ⟨rests_complete hcomplete (by rw [← hs]; exact hrunning), ?_⟩
    have hnew := (Accounts.of_posts (posts_ready m r)).trans (accounts_makes hmakes)
    rw [operateCourse, hfirst]
    exact hnew.trans
      ((passes_complete hcomplete).accounts (m.cleared_not_mem_settleCourse _ _))
  | reset =>
    have hstopped : s.session.running = false := m.running_reset r
    rw [hstopped] at hrunning
    cases hrunning
  | stop => cases hrunning
  | trigger event =>
    have htrigger : m.operate (.trigger event) r = m.complete (m.microstep (some event) r) ∧
        m.operateCourse (.trigger event) r =
          m.completeCourse (.external event) r (m.microstep (some event) r) := by
      simp only [operate, trigger, operateCourse] at hrunning ⊢
      split at hrunning
      · next hidle =>
        rw [hrunning] at hidle
        cases hidle
      · next hactive =>
        rw [if_neg hactive, if_neg hactive]
        split at hrunning
        · cases hrunning
        · next hkind => exact ⟨if_neg hkind, if_neg hkind⟩
    obtain ⟨hoperate, hcourse⟩ := htrigger
    rw [hoperate] at hok
    obtain ⟨step, t, hfirst⟩ := ok_of_complete _ hok
    have hs : s = (m.complete (.ok step, t)).2 := by rw [← hfirst, ← hoperate]
    rw [hfirst] at hok
    have hmakes : m.Makes ⟨.external event, r, step, t⟩ := hfirst
    rw [hs, hcourse, hfirst]
    exact ⟨rests_complete hok (by rw [← hs]; exact hrunning),
      (accounts_makes hmakes).trans
        ((passes_complete hok).accounts (m.cleared_not_mem_settleCourse _ _))⟩

/-- The player with an internal event that waits. -/
def playerWaiting : Run Unit :=
  playerRun.mapSession fun session => { session with internal := [.signal "mute"] }

theorem operate_settles_player :
    let s := (player.operate (.trigger (.signal "play")) playerWaiting).2
    s.session.internal = [] ∧
      ∃ entries, s.journal = entries ++ playerWaiting.journal ∧
        Stage.handed (player.operateCourse (.trigger (.signal "play")) playerWaiting) =
          .signal "mute" :: raisedIn entries := by
  intro s
  have hrunning : s.session.running = true := by decide +kernel
  have hsucceeds : (player.operate (.trigger (.signal "play")) playerWaiting).1.toBool = true := by
    decide +kernel
  cases hok : (player.operate (.trigger (.signal "play")) playerWaiting).1 with
  | error e =>
    rw [hok] at hsucceeds
    cases hsucceeds
  | ok summaries =>
    obtain ⟨hdrained, -, -, haccount⟩ :=
      operate_settles (.trigger (.signal "play")) playerWaiting hok hrunning
    exact ⟨hdrained, haccount⟩

end Interpreter

end Statechart
