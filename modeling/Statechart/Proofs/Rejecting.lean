import Statechart.Proofs.Completing
import Statechart.Proofs.Selecting
import Statechart.Proofs.Services
import Statechart.Proofs.Standing

/-!
Microsteps that are rejected. An operation that ends in an error ends with the microstep that
failed, and with the stop of the session. If the microstep was rejected for an illegal
configuration, all that went before the rejection was to bind the event, to ask guards and to
report, and all that came after it was to cancel services: of the session nothing else has changed
since the microstep began, and no content ran.
-/

namespace Statechart

/-- The entry tells of no content: it is a report, a guard that is asked, an event that is raised
or a service that is to end. -/
def Entry.isAside : Entry → Bool
  | .report _ | .guarded _ | .raised _ | .cancelInvoke .. => true
  | _ => false

/-- The error event of a service that refuses to be cancelled, if the entry notes that. -/
def Entry.cancelRefusal? : Entry → Option Event
  | .cancelInvoke invokeId reply => reply.refusal.map fun _ =>
    { Event.error Event.errorExecution with invokeId := some invokeId }
  | _ => none

/-- The error events of the services that refuse to be cancelled, oldest first. -/
def cancelRefusals (journal : List Entry) : List Event :=
  journal.reverse.filterMap Entry.cancelRefusal?

theorem cancelRefusals_append (newer older : List Entry) :
    cancelRefusals (newer ++ older) = cancelRefusals older ++ cancelRefusals newer := by
  simp [cancelRefusals]

theorem Entry.cancelRefusal?_of_isService {e : Entry} (h : e.isService = false) :
    e.cancelRefusal? = none := by
  cases e with
  | cancelInvoke => cases h
  | _ => rfl

/-- The session `s` is the session `r` but for the events that wait, the services, whether it runs,
and the variable of the current event. -/
structure Session.Untouched (r s : Session) : Prop where
  id : s.id = r.id
  configuration : s.configuration = r.configuration
  status : s.status = r.status
  histories : s.histories = r.histories
  completed : s.completed = r.completed
  pendingInvokes : s.pendingInvokes = r.pendingInvokes
  sequence : s.sequence = r.sequence
  homes : s.homes = r.homes
  shape : s.scopes.shape = r.scopes.shape
  vars : ∀ n name, n ≠ Session.systemScope ∨ name ≠ SystemVariable.event →
    (s.scopes.vars n).get? name = (r.scopes.vars n).get? name

namespace Session.Untouched

theorem of_eq {r s : Session}
    (h : s = { r with internal := s.internal, invokes := s.invokes, running := s.running }) :
    r.Untouched s := by
  rw [h]
  exact ⟨rfl, rfl, rfl, rfl, rfl, rfl, rfl, rfl, rfl, fun _ _ _ => rfl⟩

theorem refl (r : Session) : r.Untouched r :=
  of_eq rfl

theorem trans {r s t : Session} (hrs : r.Untouched s) (hst : s.Untouched t) : r.Untouched t where
  id := hst.id.trans hrs.id
  configuration := hst.configuration.trans hrs.configuration
  status := hst.status.trans hrs.status
  histories := hst.histories.trans hrs.histories
  completed := hst.completed.trans hrs.completed
  pendingInvokes := hst.pendingInvokes.trans hrs.pendingInvokes
  sequence := hst.sequence.trans hrs.sequence
  homes := hst.homes.trans hrs.homes
  shape := hst.shape.trans hrs.shape
  vars n name h := (hst.vars n name h).trans (hrs.vars n name h)

theorem bindEvent (r : Session) (event : Option Event) : r.Untouched (r.bindEvent event) := by
  -- Whether the variable is bound or cleared, one scope is changed at one name.
  have hlocal : ∀ f : Vars → Vars,
      (∀ vars name, name ≠ SystemVariable.event → (f vars).get? name = vars.get? name) →
      r.Untouched { r with scopes := r.scopes.modifyVars systemScope f } := by
    intro f hf
    refine ⟨rfl, rfl, rfl, rfl, rfl, rfl, rfl, rfl, Scopes.shape_modifyVars _ _, ?_⟩
    rintro n name (hn | hname)
    · rw [Scopes.vars_modifyVars_of_ne hn]
    · exact Scopes.get?_vars_modifyVars (fun vars => hf vars name hname) _ _
  cases event with
  | some e => exact hlocal _ fun vars name hname => by rw [SortedMap.get?_insert, if_neg hname]
  | none => exact hlocal _ fun vars name hname => by rw [SortedMap.get?_erase, if_neg hname]

end Session.Untouched

variable {σ : Type}

/-- From the run `r` to the run `s` nothing lasting happens: the session is untouched, what is
noted tells of no content, the events that are raised are the error events of services that refuse
to be cancelled, and as many services are cancelled as no longer run. -/
structure Run.Undisturbed (r s : Run σ) : Prop where
  session : r.session.Untouched s.session
  journal : ∃ entries, s.journal = entries ++ r.journal ∧ (∀ e ∈ entries, e.isAside = true) ∧
    s.session.internal = r.session.internal ++ cancelRefusals entries ∧
    ∀ id, entries.countP (Entry.cancels id) + (servicesOf s.session.invokes).count id =
      (servicesOf r.session.invokes).count id

namespace Run.Undisturbed

theorem trans {r s t : Run σ} (hrs : r.Undisturbed s) (hst : s.Undisturbed t) :
    r.Undisturbed t := by
  obtain ⟨older, hs, holder, hraised, hcount⟩ := hrs.journal
  obtain ⟨newer, ht, hnewer, hraised', hcount'⟩ := hst.journal
  refine ⟨hrs.session.trans hst.session, newer ++ older, ?_, ?_, ?_, ?_⟩
  · rw [ht, hs, List.append_assoc]
  · exact List.forall_mem_append.2 ⟨hnewer, holder⟩
  · rw [hraised', hraised, cancelRefusals_append, List.append_assoc]
  · intro id
    rw [List.countP_append, ← hcount, ← hcount', Nat.add_comm (newer.countP _), Nat.add_assoc]

/-- Nothing is noted or raised, and no service ends. -/
theorem of_session {r s : Run σ} (hsession : r.session.Untouched s.session)
    (hinvokes : s.session.invokes = r.session.invokes)
    (hinternal : s.session.internal = r.session.internal) (hjournal : s.journal = r.journal) :
    r.Undisturbed s :=
  ⟨hsession, [], hjournal, by simp, by simp [hinternal, cancelRefusals], by simp [hinvokes]⟩

theorem refl (r : Run σ) : r.Undisturbed r :=
  of_session (.refl _) rfl rfl rfl

theorem bindEvent (r : Run σ) (event : Option Event) :
    r.Undisturbed (r.mapSession (·.bindEvent event)) :=
  of_session (.bindEvent _ event) rfl rfl rfl

theorem tell (r : Run σ) {entries : List Entry}
    (h : ∀ e ∈ entries, e.isAside = true ∧ e.isService = false) :
    r.Undisturbed (r.tell entries) := by
  have hraised : cancelRefusals entries.reverse = [] := by
    rw [cancelRefusals, List.filterMap_eq_nil_iff]
    intro e he
    exact Entry.cancelRefusal?_of_isService (h e (by simpa using he)).2
  refine ⟨.refl _, entries.reverse, rfl, fun e he => (h e (by simpa using he)).1,
    by rw [hraised, List.append_nil]; rfl, ?_⟩
  intro id
  have hnone : entries.reverse.countP (Entry.cancels id) = 0 := by
    rw [List.countP_eq_zero]
    intro e he
    simp [Entry.cancels_of_isService (h e (by simpa using he)).2]
  rw [hnone, Nat.zero_add]
  rfl

theorem reports {r s : Run σ} (h : Reports r s) : r.Undisturbed s := by
  obtain ⟨reports, rfl⟩ := h
  have haside : ∀ e ∈ (reports.map Entry.report).reverse,
      e.isAside = true ∧ e.isService = false := by
    simp [Entry.isAside, Entry.isService]
  simpa [Run.tell] using tell r haside

theorem foldl {α : Type} {f : Run σ → α → Run σ} (h : ∀ (r : Run σ) (x : α), r.Undisturbed (f r x))
    (xs : List α) (r : Run σ) : r.Undisturbed (xs.foldl f r) :=
  List.foldlRecOn (motive := fun s => r.Undisturbed s) xs f (.refl r)
    fun s hs x _ => hs.trans (h s x)

end Run.Undisturbed

namespace Interpreter

variable (m : Interpreter σ)

/-- One service is cancelled, and nothing else is noted or raised but that the host refuses. -/
theorem cancelInvoke_told (s : Nat) (invokeId : String) (r : Run σ) :
    r.session.Untouched (m.cancelInvoke s invokeId r).session ∧
      ∃ entries, (m.cancelInvoke s invokeId r).journal = entries ++ r.journal ∧
        (∀ e ∈ entries, e.isAside = true) ∧
        (m.cancelInvoke s invokeId r).session.internal =
          r.session.internal ++ cancelRefusals entries ∧
        ∀ id, entries.countP (Entry.cancels id) = [invokeId].count id := by
  unfold cancelInvoke
  dsimp only
  split
  · next haccepts =>
    refine ⟨.refl _, [_], rfl, by simp [Entry.isAside], ?_,
      fun id => by simp [Entry.cancels, List.count_singleton]⟩
    simp [cancelRefusals, Entry.cancelRefusal?, haccepts, Run.note, Run.hear]
  · next hrefuses =>
    refine ⟨.of_eq rfl, [_, _, _], rfl, by simp [Entry.isAside], ?_,
      fun id => by simp [Entry.cancels, List.countP_cons, List.count_singleton]⟩
    simp [cancelRefusals, Entry.cancelRefusal?, hrefuses, invokeRefused, Run.report, Run.raise,
      Run.mapSession, Session.raise, Run.note, Run.hear]

/-- Services are cancelled one after the other. -/
theorem foldl_cancelInvoke (s : Nat) (ids : List String) (r : Run σ) :
    let t := ids.foldl (fun r invokeId => m.cancelInvoke s invokeId r) r
    r.session.Untouched t.session ∧ t.session.invokes = r.session.invokes ∧
      ∃ entries, t.journal = entries ++ r.journal ∧ (∀ e ∈ entries, e.isAside = true) ∧
        t.session.internal = r.session.internal ++ cancelRefusals entries ∧
        ∀ id, entries.countP (Entry.cancels id) = ids.count id := by
  induction ids generalizing r with
  | nil => exact ⟨.refl _, rfl, [], rfl, by simp, by simp [cancelRefusals], by simp⟩
  | cons invokeId rest ih =>
    obtain ⟨hfirst, older, holder, haside, hraised, hcount⟩ := m.cancelInvoke_told s invokeId r
    obtain ⟨hrest, hinvokes, newer, hnewer, haside', hraised', hcount'⟩ :=
      ih (m.cancelInvoke s invokeId r)
    refine ⟨hfirst.trans hrest, hinvokes.trans (invokes_cancelInvoke s invokeId r),
      newer ++ older, ?_, List.forall_mem_append.2 ⟨haside', haside⟩, ?_, ?_⟩
    · rw [List.foldl_cons, hnewer, holder, List.append_assoc]
    · rw [List.foldl_cons, hraised', hraised, cancelRefusals_append, List.append_assoc]
    · intro id
      rw [List.countP_append, hcount, hcount', List.count_cons, List.count_cons, List.count_nil,
        Nat.zero_add]

theorem undisturbed_cancelInvokes (s : Nat) (r : Run σ) :
    r.Undisturbed (m.cancelInvokes s r) := by
  unfold cancelInvokes
  split
  · exact .refl r
  · next ids hids =>
    obtain ⟨hsession, hinvokes, entries, hjournal, haside, hraised, hcount⟩ :=
      m.foldl_cancelInvoke s ids
        (r.mapSession fun session => { session with invokes := session.invokes.erase s })
    have herased : r.session.Untouched
        (r.mapSession fun session => { session with invokes := session.invokes.erase s }).session :=
      .of_eq rfl
    refine ⟨herased.trans hsession, entries, hjournal, haside, hraised, ?_⟩
    intro id
    rw [hcount, hinvokes, count_servicesOf_erase r.session.invokes s, hids]
    rfl

theorem undisturbed_cancelAllInvokes (r : Run σ) : r.Undisturbed (m.cancelAllInvokes r) :=
  .foldl (fun r s => m.undisturbed_cancelInvokes s r) _ r

theorem undisturbed_stop (r : Run σ) : r.Undisturbed (m.stop r) :=
  (m.undisturbed_cancelAllInvokes r).trans (.of_session (.of_eq rfl) rfl rfl rfl)

theorem guardStory_aside (r : Run σ) (t : Nat) :
    ∀ e ∈ m.guardStory r t, e.isAside = true ∧ e.isService = false := by
  unfold guardStory
  split
  · simp
  · split <;> simp [Entry.isAside, Entry.isService]

/-- Selection binds the event, asks guards and reports. -/
theorem undisturbed_selectFor (event : Option Event) (r : Run σ) :
    r.Undisturbed (m.selectFor event r).2 := by
  obtain ⟨⟨dropped, hselect, -⟩, -⟩ := m.selectFor_spec event r
  rw [hselect]
  refine (Run.Undisturbed.bindEvent r event).trans (.tell _ ?_)
  intro e he
  rcases List.mem_append.1 he with he | he
  · obtain ⟨t, -, ht⟩ := List.mem_flatMap.1 he
    exact m.guardStory_aside _ t e ht
  · obtain ⟨d, -, rfl⟩ := List.mem_map.1 he
    exact ⟨rfl, rfl⟩

/-- A step is not rejected any more once it is carried out. -/
theorem carryOut_ne_illegal (step : Step) (r : Run σ) (vs : List Violation) :
    (m.carryOut step r).1 ≠ .error (.illegalConfiguration vs) := by
  unfold carryOut moveConfiguration
  split <;> simp

theorem undisturbed_microstep {event : Option Event} {r : Run σ} {vs : List Violation}
    (h : (m.microstep event r).1 = .error (.illegalConfiguration vs)) :
    r.Undisturbed (m.microstep event r).2 := by
  have hstep := m.microstep_spec event r
  generalize m.microstep event r = out at hstep h
  cases hstep with
  | idle _ _ _ _ => cases h
  | @refused ts s t e hselect _ happrove =>
    have hselected := m.undisturbed_selectFor event r
    have hreports := m.reports_approve (m.planFor ts s) s
    rw [hselect] at hselected
    rw [happrove] at hreports
    exact hselected.trans (.reports hreports)
  | fired _ _ _ _ _ => exact absurd h (m.carryOut_ne_illegal _ _ vs)

theorem undisturbed_initialStep {r : Run σ} {vs : List Violation}
    (h : (m.initialStep r).1 = .error (.illegalConfiguration vs)) :
    r.Undisturbed (m.initialStep r).2 := by
  have hcarried : ∀ step t, Leaves (fun _ => True)
      (fun e t => e = .illegalConfiguration vs → r.Undisturbed t) (m.carryOut step t) := by
    intro step t
    have hne := m.carryOut_ne_illegal step t vs
    unfold Leaves
    split
    · trivial
    · next he =>
      rintro rfl
      exact absurd he hne
  have hleaves : Leaves (fun _ => True)
      (fun e t => e = .illegalConfiguration vs → r.Undisturbed t) (m.initialStep r) :=
    leaves_initialStep (fun hreports _ => .reports hreports) (fun _ => hcarried _ _)
      (fun _ => hcarried _ _)
  unfold Leaves at hleaves
  rw [h] at hleaves
  exact hleaves rfl

/-- What comes of an attempted microstep. -/
def attempted : Attempt σ → Except StepError Step × Run σ
  | .start r => m.initialStep r
  | .step event r => m.microstep event r

/-- The last of `attempts` fails with `e` and leaves the run `t`. -/
def FailsLast (attempts : List (Attempt σ)) (e : StepError) (t : Run σ) : Prop :=
  ∃ attempt, attempts.getLast? = some attempt ∧ m.attempted attempt = (.error e, t)

variable {m}

theorem FailsLast.append {attempts : List (Attempt σ)} {e : StepError} {t : Run σ}
    (h : m.FailsLast attempts e t) (earlier : List (Attempt σ)) :
    m.FailsLast (earlier ++ attempts) e t := by
  obtain ⟨attempt, hlast, hout⟩ := h
  exact ⟨attempt, by rw [List.getLast?_append, hlast, Option.some_or], hout⟩

theorem failsLast_round {r t : Run σ} {e : StepError} (h : m.round r = .failed e t) :
    m.FailsLast (m.roundAttempts r) e t := by
  unfold round at h
  unfold roundAttempts
  cases hfirst : m.microstep none r with
  | mk result s =>
    rw [hfirst] at h
    cases result with
    | error e' =>
      cases h
      exact ⟨_, rfl, hfirst⟩
    | ok step =>
      dsimp only at h ⊢
      split
      · next hfired =>
        rw [if_pos hfired] at h
        cases h
      · next hfired =>
        rw [if_neg hfired] at h
        cases htake : takeInternal s with
        | none =>
          rw [htake] at h
          cases h
        | some next =>
          obtain ⟨event, u⟩ := next
          rw [htake] at h
          cases hsecond : m.microstep (some event) u with
          | mk result' v =>
            simp only [hsecond] at h
            cases result' with
            | error e' =>
              cases h
              exact ⟨_, rfl, hsecond⟩
            | ok step' => cases h

theorem error_of_map {f : List Summary → List Summary} {out : Outcome × Run σ} {e : StepError}
    {t : Run σ} (h : (out.1.map f, out.2) = (.error e, t)) : out = (.error e, t) := by
  obtain ⟨result, s⟩ := out
  cases result with
  | error e' => exact h
  | ok summaries => cases h

/-- A macrostep that fails, fails with the last microstep that it begins. -/
theorem failsLast_settle (budget : Nat) {r t : Run σ} {e : StepError}
    (h : m.settle budget r = (.error e, t)) : m.FailsLast (m.settleAttempts budget r) e t := by
  induction budget generalizing r t with
  | zero => cases h
  | succ budget ih =>
    rw [settle_succ] at h
    unfold settleAttempts
    cases hround : m.round r with
    | failed e' s =>
      rw [hround] at h
      cases h
      simpa using failsLast_round hround
    | moved step s =>
      rw [hround] at h
      exact (ih (error_of_map h)).append _
    | idle s =>
      rw [hround] at h
      simp only [pursue, serve] at h
      refine FailsLast.append ?_ _
      dsimp only
      split
      · next hnone =>
        rw [if_pos hnone] at h
        cases h
      · next hsome =>
        rw [if_neg hsome] at h
        cases hagain : m.round (m.startInvokes s) with
        | failed e' u =>
          rw [hagain] at h
          cases h
          simpa using failsLast_round hagain
        | moved step u =>
          rw [hagain] at h
          exact (ih (error_of_map h)).append _
        | idle u =>
          rw [hagain] at h
          cases h

theorem failsLast_complete (attempt : Attempt σ) {first : Except StepError Step × Run σ}
    (hfirst : m.attempted attempt = first) {e : StepError}
    (h : (m.complete first).1 = .error e) :
    ∃ t, m.FailsLast (attempt :: m.completeAttempts first) e t ∧
      (m.complete first).2 = m.stop t := by
  obtain ⟨result, s⟩ := first
  cases result with
  | error e' =>
    cases h
    exact ⟨s, ⟨attempt, rfl, hfirst⟩, rfl⟩
  | ok step =>
    rw [complete_ok] at h ⊢
    cases hsettle : m.settle m.config.maxMicrosteps s with
    | mk rest t =>
      rw [hsettle] at h
      cases rest with
      | error e' =>
        cases h
        exact ⟨t, (failsLast_settle _ hsettle).append [attempt], rfl⟩
      | ok summaries => cases h

/-- An operation that fails, fails with the last microstep that it begins, and then stops the
session. -/
theorem failsLast_operate {operation : Operation} {r : Run σ} {e : StepError}
    (h : (m.operate operation r).1 = .error e) :
    ∃ t, m.FailsLast (m.operateAttempts operation r) e t ∧
      (m.operate operation r).2 = m.stop t := by
  cases operation with
  | go => exact failsLast_complete (.start (m.ready r)) rfl h
  | reset => cases h
  | stop => cases h
  | trigger event =>
    simp only [operate, trigger, operateAttempts] at h ⊢
    split at h
    · cases h
    · next hrunning =>
      split at h
      · cases h
      · next hkind =>
        rw [if_neg hrunning, if_neg hkind, if_neg hrunning, if_neg hkind]
        exact failsLast_complete (.step (some event) r) rfl h

theorem undisturbed_attempted {attempt : Attempt σ} {vs : List Violation} {t : Run σ}
    (h : m.attempted attempt = (.error (.illegalConfiguration vs), t)) :
    attempt.before.Undisturbed t := by
  cases attempt with
  | start r =>
    have hout := m.undisturbed_initialStep (congrArg Prod.fst h)
    rwa [show m.initialStep r = _ from h] at hout
  | step event r =>
    have hout := m.undisturbed_microstep (congrArg Prod.fst h)
    rwa [show m.microstep event r = _ from h] at hout

/-- An operation that is rejected for an illegal configuration leaves no trace of the microstep that
was rejected, the last that it began. Since then no content has run; everything in the session is
as it was, the configuration legal as before, but for the variable of the current event and the
events that wait. The session is stopped, and each service that ran has been cancelled; to the
events that wait have come the error events of those that refused, and no others. -/
theorem rejected_without_trace {o : Outline} (hbuild : o.build = .ok m.chart)
    (hcheck : m.config.checkLegality = true) (hfatal : m.config.legality = .fatal) {r : Run σ}
    (hr : m.Reachable r) {operation : Operation} {vs : List Violation}
    (h : (m.operate operation r).1 = .error (.illegalConfiguration vs)) :
    ∃ attempt, (m.operateAttempts operation r).getLast? = some attempt ∧
      (m.attempted attempt).1 = .error (.illegalConfiguration vs) ∧
      let before := attempt.before
      let after := (m.operate operation r).2
      before.session.Untouched after.session ∧
      m.chart.violations (before.session.configuration.atomic m.chart) = [] ∧
      after.session.running = false ∧ after.session.invokes = ∅ ∧
      ∃ entries, after.journal = entries ++ before.journal ∧
        (∀ e ∈ entries, e.isAside = true) ∧
        after.session.internal = before.session.internal ++ cancelRefusals entries ∧
        ∀ id, entries.countP (Entry.cancels id) = (servicesOf before.session.invokes).count id := by
  have hw := (Outline.wellFormed_of_build hbuild).1
  obtain ⟨t, ⟨attempt, hlast, hout⟩, hstop⟩ := failsLast_operate h
  have hfooted := footed_before hw hcheck hfatal hr operation (List.mem_of_getLast? hlast)
  have hatomic : m.chart.AllAtomic (attempt.before.session.configuration.atomic m.chart) := by
    intro x hx
    exact ⟨(StateSet.mem_filter.1 hx).2,
      (hfooted.legal.ordinary (hw.mem_closure_of_mem hx)).1⟩
  have hundisturbed : attempt.before.Undisturbed (m.stop t) :=
    (undisturbed_attempted hout).trans (m.undisturbed_stop t)
  have hnone : (m.stop t).session.invokes = ∅ := invokes_cancelAllInvokes t
  obtain ⟨entries, hjournal, haside, hraised, hcount⟩ := hundisturbed.journal
  refine ⟨attempt, hlast, congrArg Prod.fst hout, ?_⟩
  dsimp only
  rw [hstop]
  refine ⟨hundisturbed.session, (hw.violations_eq_nil_iff hatomic).2 hfooted.legal, rfl, hnone,
    entries, hjournal, haside, hraised, ?_⟩
  intro id
  rw [← hcount id, hnone]
  rfl

end Interpreter

/-- A history that goes to both states of a compound state by default, and a service that runs
before. -/
def Outline.siren : Outline where
  name := none
  datamodel := none
  initial := []
  states := [
    .mk { StateHead.named "A" .plain [] [.on "go" "H"] with
      invokes := [⟨some "alarm", "service", none, []⟩] } [],
    .mk (.named "B" .plain [⟨some "H", .deep, some ⟨["B1", "B2"], []⟩⟩] []) [
      .mk (.named "B1" .plain [] []) [],
      .mk (.named "B2" .plain [] []) []]]
  data := []

theorem Outline.build_siren : Outline.siren.build = .ok Outline.siren.chart :=
  build_eq_ok rfl (by decide +kernel) (by decide +kernel)

namespace Interpreter

/-- The service runs. -/
def sirenRun : Run Unit :=
  (strict .siren).operateAll [.go] newRun

/-- The history is not entered, and the service is cancelled. -/
theorem rejected_without_trace_siren :
    let after := ((strict .siren).operate (.trigger (.signal "go")) sirenRun).2
    sirenRun.session.Untouched after.session ∧ after.session.running = false ∧
      ∃ entries, after.journal = entries ++ sirenRun.journal ∧
        (∀ e ∈ entries, e.isAside = true) ∧
        after.session.internal = sirenRun.session.internal ++ cancelRefusals entries ∧
        entries.countP (Entry.cancels "alarm") = 1 := by
  have hreachable : (strict .siren).Reachable sirenRun := (Reachable.new _ _).operateAll _
  have hrunning : sirenRun.session.running = true := by decide +kernel
  have herror : ((strict .siren).operate (.trigger (.signal "go")) sirenRun).1 =
      .error (.illegalConfiguration [.multipleActiveChildren "B" ["B1", "B2"]]) := by
    decide +kernel
  have hattempts : (strict .siren).operateAttempts (.trigger (.signal "go")) sirenRun =
      [.step (some (.signal "go")) sirenRun] := by
    have hlength : ((strict .siren).operateAttempts (.trigger (.signal "go")) sirenRun).length =
        1 := by decide +kernel
    have hkind : (Event.signal "go").kind ≠ .cancel := by decide
    unfold operateAttempts at hlength ⊢
    simpa [hrunning, hkind] using hlength
  obtain ⟨attempt, hlast, -, huntouched, -, hstopped, -, entries, hjournal, haside, hraised,
    hcount⟩ :=
    rejected_without_trace Outline.build_siren rfl rfl hreachable herror
  rw [hattempts] at hlast
  cases hlast
  refine ⟨huntouched, hstopped, entries, hjournal, haside, hraised, ?_⟩
  rw [hcount]
  decide +kernel

end Interpreter

end Statechart
