import Statechart.Proofs.Checking
import Statechart.Proofs.Conditions

/-!
Numbers for generated ids. A send or a service without an id of its own gets one that is made of
the next number of the session. The numbers that are given out are listed here in order, along
the functions that give them out: they follow one another without a gap, every one of them stands
in an id that is told to the outside, and so the ids made up for sends differ from one another
until the session is cleared and its numbers start again.
-/

namespace Statechart

/-- The session is cleared by the operation, and its numbers start again. -/
def Operation.clears : Operation → Bool
  | go | reset => true
  | stop | trigger _ => false

/-- A number that is given out, with the session in which it is the last one. -/
inductive Issue where
  /-- For a send without an id of its own. -/
  | send (session : Session)
  /-- For a service without an id of its own, of the state with the id `state`. -/
  | service (state : String) (session : Session)

namespace Issue

def session : Issue → Session
  | send session | service _ session => session

/-- The id that is made up for a send. -/
def sendId? : Issue → Option String
  | send session => some session.sendId
  | service .. => none

theorem sendId?_eq_some {issue : Issue} {id : String} (h : issue.sendId? = some id) :
    id = issue.session.sendId := by
  cases issue with
  | send session => exact (Option.some.inj h).symm
  | service state session => cases h

/-- The entry tells what the number is given out for, under the id that is made of it. -/
def BorneBy : Issue → Entry → Prop
  | send session, .send request _ => request.sendId = session.sendId
  | send session, .raised e => e.sendId = some session.sendId
  | service state session, .startInvoke request _ =>
    request.state = state ∧ request.invokeId = state ++ "." ++ toString session.sequence.toNat
  | _, _ => False

end Issue

/-- In one session the same id is made of the same number. -/
theorem Session.sequence_of_sendId {x y : Session} (hid : x.id = y.id)
    (h : x.sendId = y.sendId) : x.sequence = y.sequence := by
  unfold sendId at h
  rw [hid, String.append_right_inj] at h
  have hdigits : Nat.toDigits 10 x.sequence.toNat = Nat.toDigits 10 y.sequence.toNat :=
    String.ofList_injective h
  have hvalue := congrArg (fun cs => Nat.ofDigitChars 10 cs 0) hdigits
  simp only [Nat.ofDigitChars_ten_toDigits] at hvalue
  exact UInt64.toNat.inj hvalue

variable {σ : Type}

/-- From the run `r` to the run `s` no number is given out. -/
structure Keeps (r s : Run σ) : Prop where
  id : s.session.id = r.session.id
  sequence : s.session.sequence = r.session.sequence
  journal : r.journal <:+ s.journal

namespace Keeps

theorem refl (r : Run σ) : Keeps r r :=
  ⟨rfl, rfl, List.suffix_rfl⟩

/-- Other parts of the session change. -/
theorem mapSession (r : Run σ) {f : Session → Session}
    (hf : ∀ x, (f x).id = x.id ∧ (f x).sequence = x.sequence) : Keeps r (r.mapSession f) :=
  ⟨(hf r.session).1, (hf r.session).2, List.suffix_rfl⟩

theorem trans {r s t : Run σ} (hrs : Keeps r s) (hst : Keeps s t) : Keeps r t :=
  ⟨hst.id.trans hrs.id, hst.sequence.trans hrs.sequence, hrs.journal.trans hst.journal⟩

theorem note (r : Run σ) (e : Entry) : Keeps r (r.note e) :=
  ⟨rfl, rfl, List.suffix_cons e r.journal⟩

theorem raise (r : Run σ) (e : Event) : Keeps r (r.raise e) :=
  ⟨rfl, rfl, List.suffix_cons _ r.journal⟩

theorem hear {ε : Type} (r : Run σ) (answer : Reply ε × σ) : Keeps r (r.hear answer) :=
  ⟨rfl, rfl, List.suffix_rfl⟩

/-- Steps of a fold, one after the other. -/
theorem foldl {α : Type} {f : Run σ → α → Run σ} (h : ∀ r x, Keeps r (f r x)) (xs : List α)
    (r : Run σ) : Keeps r (xs.foldl f r) := by
  induction xs generalizing r with
  | nil => exact .refl r
  | cons x rest ih => exact (h r x).trans (ih (f r x))

theorem of_notes {r s : Run σ} (h : Notes r s) : Keeps r s := by
  obtain ⟨entries, -, rfl⟩ := h
  exact ⟨rfl, rfl, List.suffix_append entries r.journal⟩

theorem of_acts {r s : Run σ} (h : Acts r s) (hsequence : s.session.sequence = r.session.sequence) :
    Keeps r s := by
  obtain ⟨entries, hjournal, -⟩ := h.posts
  exact ⟨h.keeps.2.2.2.2.1, hsequence, hjournal ▸ List.suffix_append entries r.journal⟩

theorem of_marks {known : Nat → Prop} {r s : Run σ} (h : Marks known r s) : Keeps r s := by
  induction h with
  | trans _ _ hrs hst => exact hrs.trans hst
  | raiseDone r id => exact .raise r _
  | refl r => exact .refl r
  | _ => exact .mapSession _ fun _ => ⟨rfl, rfl⟩

end Keeps

namespace Interpreter

variable (m : Interpreter σ)

theorem keeps_assign (owner : Nat) (location expr : String) (r : Run σ) :
    Keeps r (m.assign owner location expr r).2 := by
  refine .of_acts (m.performs_assign owner location expr r).acts ?_
  unfold assign
  dsimp only
  split
  · rfl
  · split
    · rfl
    · split <;> rfl

theorem keeps_declare (owner : Nat) (name : String) (expr : Option String) (r : Run σ) :
    Keeps r (m.declare owner name expr r).2 := by
  refine .of_acts (m.performs_declare owner name expr r).acts ?_
  unfold declare
  dsimp only
  split
  · rfl
  · split
    · rfl
    · split <;> rfl

theorem keeps_log (owner : Nat) (label expr : Option String) (r : Run σ) :
    Keeps r (m.log owner label expr r).2 := by
  unfold log
  dsimp only
  split
  · exact .note r _
  · split
    · exact .refl r
    · exact .note r _

theorem keeps_cancelSend (sendId : String) (r : Run σ) : Keeps r (m.cancelSend sendId r) :=
  (Keeps.hear r (m.host.cancelSend sendId r.world)).trans (.note _ _)

theorem keeps_invokeRefused (s : Nat) (invokeId : String) (e : InvokeError) (r : Run σ) :
    Keeps r (m.invokeRefused s invokeId e r) :=
  (Keeps.note r _).trans (.raise _ _)

theorem keeps_invokeParams (s : Nat) (params : List Param) (r : Run σ) :
    Keeps r (m.invokeParams s params r).2 := by
  refine List.foldlRecOn
    (motive := fun out : SortedMap String Json.Value × Run σ => Keeps r out.2)
    params _ (.refl r) ?_
  rintro ⟨known, s⟩ hout p _
  dsimp only
  split
  · exact hout
  · exact Keeps.trans hout (.note s _)

theorem keeps_cancelInvoke (s : Nat) (invokeId : String) (r : Run σ) :
    Keeps r (m.cancelInvoke s invokeId r) := by
  have hasked : Keeps r ((r.hear (m.host.cancelInvoke invokeId r.world)).note
      (.cancelInvoke invokeId (m.host.cancelInvoke invokeId r.world).1)) :=
    (Keeps.hear r _).trans (.note _ _)
  unfold cancelInvoke
  dsimp only
  split
  · exact hasked
  · exact hasked.trans (m.keeps_invokeRefused s invokeId _ _)

theorem keeps_cancelInvokes (s : Nat) (r : Run σ) : Keeps r (m.cancelInvokes s r) := by
  have hdropped : Keeps r
      (r.mapSession fun session => { session with invokes := session.invokes.erase s }) :=
    .mapSession r fun _ => ⟨rfl, rfl⟩
  unfold cancelInvokes
  split
  · exact .refl r
  · exact hdropped.trans (.foldl (fun r invokeId => m.keeps_cancelInvoke s invokeId r) _ _)

theorem keeps_cancelAllInvokes (r : Run σ) : Keeps r (m.cancelAllInvokes r) :=
  .foldl (fun r s => m.keeps_cancelInvokes s r) _ r

theorem keeps_stop (r : Run σ) : Keeps r (m.stop r) :=
  (m.keeps_cancelAllInvokes r).trans (.mapSession _ fun _ => ⟨rfl, rfl⟩)

theorem keeps_declareAll (owner : Option Nat) (data : List Data) (r : Run σ) :
    Keeps r (m.declareAll owner data r) := by
  refine .foldl (fun r d => ?_) data r
  cases d.expr with
  | none => exact .mapSession _ fun _ => ⟨rfl, rfl⟩
  | some expr =>
    dsimp only
    split
    · exact .mapSession _ fun _ => ⟨rfl, rfl⟩
    · exact ((Keeps.note r _).trans (.raise _ _)).trans (.mapSession _ fun _ => ⟨rfl, rfl⟩)

theorem keeps_initializeData (r : Run σ) : Keeps r (m.initializeData r) :=
  (m.keeps_declareAll none m.chart.data r).trans
    (.foldl (fun r s => m.keeps_declareAll (some s) (m.chart.node s).data r) _ _)

theorem keeps_select (candidates : List Candidate) (active : StateSet) (r : Run σ) :
    Keeps r (m.select candidates active r).2 :=
  .of_acts (m.performs_select candidates active r : Performs Unreserved _ _).acts
    (congrArg Session.sequence (m.session_select candidates active r))

theorem keeps_approve (plan : Plan) (r : Run σ) : Keeps r (m.approve plan r).2 :=
  .of_notes (m.notes_approve plan r)

theorem keeps_moveConfiguration (step : Step) (r : Run σ) :
    Keeps r (m.moveConfiguration step r).2 := by
  unfold moveConfiguration
  split <;> exact ⟨rfl, rfl, List.suffix_rfl⟩

theorem keeps_takeInternal {r s : Run σ} {e : Event} (h : takeInternal r = some (e, s)) :
    Keeps r s := by
  unfold takeInternal at h
  split at h
  · cases h
  · obtain ⟨rfl, rfl⟩ := Prod.mk.inj (Option.some.inj h)
    exact ⟨rfl, rfl, List.suffix_cons _ r.journal⟩

theorem keeps_settled (r : Run σ) : Keeps r (m.settled r) := by
  have hpublished : Keeps r (r.mapSession Session.publishPending) :=
    .mapSession r fun _ => ⟨rfl, rfl⟩
  unfold settled
  dsimp only
  split
  · exact hpublished.trans (m.keeps_stop _)
  · exact hpublished

theorem keeps_exhausted (r : Run σ) : Keeps r (m.exhausted r) :=
  ((Keeps.note r _).trans (m.keeps_stop _)).trans (.mapSession _ fun _ => ⟨rfl, rfl⟩)

theorem keeps_conclude (outcome : Outcome) (r : Run σ) :
    Keeps r (m.conclude (outcome, r)).2 := by
  cases outcome with
  | error e => exact m.keeps_stop r
  | ok summaries => exact .refl r

/-- A session that was cleared is reset without a number being given out. -/
theorem keeps_reset (r : Run σ) : Keeps (m.clear r) (m.reset r) := by
  have hpublished : Keeps (m.initializeData (m.clear r)) (m.reset r) :=
    .mapSession _ (f := (·.publish m.chart)) fun _ => ⟨rfl, rfl⟩
  exact (m.keeps_initializeData (m.clear r)).trans hpublished

/-- A send that fails before it needs an id takes no number; one that the host refuses does. -/
def sendIssues (owner : Nat) (s : Send) (r : Run σ) : List Issue :=
  match m.evaluator.eventName (m.viewOf r owner) s with
  | .error _ => []
  | .ok _ =>
    match m.evaluator.payload (m.viewOf r owner) s with
    | .error _ => []
    | .ok _ =>
      match s.id with
      | some _ => []
      | none => [.send r.session.advance]

mutual
def actionIssues (owner : Nat) : Action → Run σ → List Issue
  | .send s, r => m.sendIssues owner s r
  | .choose branches otherwise, r =>
    branchIssues owner branches r ++
      match m.performFirst owner branches r with
      | some _ => []
      | none => actionsIssues owner otherwise r
  | .assign .., _ | .declare .., _ | .log .., _ | .raise _, _ | .cancel _, _ => []
def actionsIssues (owner : Nat) : List Action → Run σ → List Issue
  | [], _ => []
  | action :: rest, r =>
    actionIssues owner action r ++
      match m.perform owner action r with
      | (none, s) => actionsIssues owner rest s
      | _ => []
/-- Numbers are given out in the first branch whose condition holds. -/
def branchIssues (owner : Nat) : List Branch → Run σ → List Issue
  | [], _ => []
  | .mk condition actions :: rest, r =>
    match m.evaluator.holds (m.viewOf r owner) condition with
    | .error _ => []
    | .ok true => actionsIssues owner actions r
    | .ok false => branchIssues owner rest r
end

def blockIssues (block : Block) (owner : Nat) (actions : List Action) (r : Run σ) : List Issue :=
  m.actionsIssues owner actions (r.note (.began block))

/-- The numbers given out by acts that follow one another. -/
def issuesAlong {α : Type} (issues : α → Run σ → List Issue) (act : Run σ → α → Run σ) :
    List α → Run σ → List Issue
  | [], _ => []
  | x :: rest, r => issues x r ++ issuesAlong issues act rest (act r x)

def initialIssues (step : Step) (s : Nat) (r : Run σ) : List Issue :=
  match m.chart.defaultTransition? s with
  | some t =>
    if s ∈ step.defaultEntry then m.blockIssues (.initial s) s (m.chart.transition t).actions r
    else []
  | none => []

def historyIssues (step : Step) (s h : Nat) (r : Run σ) : List Issue :=
  match step.historyDefaults.get? h with
  | some t => m.blockIssues (.history h) s (m.chart.transition t).actions r
  | none => []

def leaveIssues (s : Nat) (r : Run σ) : List Issue :=
  m.blockIssues (.exit s) s (m.chart.node s).onExit r

def fireIssues (t : Nat) (r : Run σ) : List Issue :=
  m.blockIssues (.transition t) (m.chart.transition t).source (m.chart.transition t).actions r

def enterIssues (step : Step) (s : Nat) (r : Run σ) : List Issue :=
  let r := r.mapSession (·.withdraw s)
  let entered := m.runBlock (.entry s) s (m.chart.node s).onEntry r
  m.blockIssues (.entry s) s (m.chart.node s).onEntry r ++
    (m.initialIssues step s entered ++
      issuesAlong (m.historyIssues step s) (m.runHistory step s) (m.chart.node s).histories
        (m.runInitial step s entered))

def contentIssues (step : Step) (r : Run σ) : List Issue :=
  let left := step.exitList.foldl (fun r s => m.leave s r) r
  let fired := step.transitions.foldl (fun r t => m.fire t r) left
  issuesAlong m.leaveIssues (fun r s => m.leave s r) step.exitList r ++
    (issuesAlong m.fireIssues (fun r t => m.fire t r) step.transitions left ++
      issuesAlong (m.enterIssues step) (fun r s => m.enter step s r) step.entryList fired)

def planIssues (plan : Plan) (step : Step) (prepare : Run σ → Run σ) (r : Run σ) : List Issue :=
  match m.approve plan r with
  | (some _, _) => []
  | (none, s) => m.contentIssues (m.planned plan step) (prepare s)

def startIssues (r : Run σ) : List Issue :=
  if m.chart.initial.isEmpty then []
  else m.planIssues (m.chart.planStart r.session.histories) (Step.start none .empty) id r

def microstepIssues (event : Option Event) (r : Run σ) : List Issue :=
  let r := r.mapSession (·.bindEvent event)
  let before := r.session.status
  let candidates := m.chart.candidates (event.map Event.name) before.states
  let selected := m.select candidates before.states r
  let plan := m.chart.plan selected.2.session.histories before selected.1
  if selected.1.isEmpty then []
  else
    m.planIssues plan
      { Step.start event before with candidates := candidates, transitions := selected.1 }
      (fun r => r.mapSession fun session =>
        { session with
          histories := plan.exitList.foldl
            (fun histories s => histories.recordExit m.chart s before) session.histories })
      selected.2

def invokeIssues (s : Nat) (i : Invoke) (r : Run σ) : List Issue :=
  match i.id with
  | some _ => []
  | none => [.service (m.chart.idOf s) r.session.advance]

/-- Starts the services of `s`, if it is active. -/
def startServices (r : Run σ) (s : Nat) : Run σ :=
  if s ∈ r.session.configuration.active then
    (m.chart.node s).invokes.foldl (fun r i => m.startInvoke s i r) r
  else r

def servicesIssues (s : Nat) (r : Run σ) : List Issue :=
  if s ∈ r.session.configuration.active then
    issuesAlong (m.invokeIssues s) (fun r i => m.startInvoke s i r) (m.chart.node s).invokes r
  else []

theorem startInvokes_eq (r : Run σ) :
    m.startInvokes r = r.session.pendingInvokes.members.foldl m.startServices
      (r.mapSession fun session => { session with pendingInvokes := ∅ }) := rfl

def invokesIssues (r : Run σ) : List Issue :=
  issuesAlong m.servicesIssues m.startServices r.session.pendingInvokes.members
    (r.mapSession fun session => { session with pendingInvokes := ∅ })

def roundIssues (r : Run σ) : List Issue :=
  m.microstepIssues none r ++
    match m.microstep none r with
    | (.error _, _) => []
    | (.ok step, s) =>
      if step.hasFired then []
      else
        match takeInternal s with
        | none => []
        | some (e, t) => m.microstepIssues (some e) t

def settleIssues : (budget : Nat) → Run σ → List Issue
  | 0, _ => []
  | budget + 1, r =>
    m.roundIssues r ++
      match m.round r with
      | .failed _ _ => []
      | .moved _ s => settleIssues budget s
      | .idle s =>
        m.invokesIssues s ++
          if (m.startInvokes s).session.internal.isEmpty then []
          else
            m.roundIssues (m.startInvokes s) ++
              match m.round (m.startInvokes s) with
              | .moved _ t => settleIssues budget t
              | _ => []

/-- The numbers given out in a macrostep after its first microstep, which comes out as `first`. -/
def completeIssues (first : Except StepError Step × Run σ) : List Issue :=
  match first with
  | (.error _, _) => []
  | (.ok _, s) => m.settleIssues m.config.maxMicrosteps s

def operateIssues : Operation → Run σ → List Issue
  | .go, r => m.startIssues (m.ready r) ++ m.completeIssues (m.initialStep (m.ready r))
  | .reset, _ => []
  | .stop, _ => []
  | .trigger event, r =>
    if !r.session.running then []
    else if event.kind = .cancel then []
    else m.microstepIssues (some event) r ++ m.completeIssues (m.microstep (some event) r)

/-- The numbers given out by operations, in order. -/
def issues : List Operation → Run σ → List Issue
  | [], _ => []
  | operation :: rest, r => m.operateIssues operation r ++ issues rest (m.operate operation r).2

/-- The ids made up for sends that have none of their own, in order. -/
def sendIds (operations : List Operation) (r : Run σ) : List String :=
  (m.issues operations r).filterMap Issue.sendId?

end Interpreter

/-- From the run `r` to the run `s` the numbers of a list are given out, one after the other. -/
inductive Numbers : Run σ → List Issue → Run σ → Prop where
  | keep {r s : Run σ} (h : Keeps r s) : Numbers r [] s
  /-- The next number is given out, and an entry tells what for. -/
  | give {r t : Run σ} {issue : Issue} {entry : Entry} (hissue : issue.session = r.session.advance)
      (hkeeps : Keeps (r.mapSession Session.advance) t) (hborne : issue.BorneBy entry) :
    Numbers r [issue] (t.note entry)
  | trans {r s t : Run σ} {xs ys : List Issue} (hrs : Numbers r xs s) (hst : Numbers s ys t) :
    Numbers r (xs ++ ys) t

/-- From the run `r` to the run `s` the entries of the journal tell what the numbers of a list are
given out for, in order and among others. -/
def Tells (r : Run σ) (issues : List Issue) (s : Run σ) : Prop :=
  ∃ entries, s.journal = entries ++ r.journal ∧
    ∃ told, List.Forall₂ Issue.BorneBy issues told ∧ told.Sublist entries.reverse

namespace Tells

theorem of_suffix {r s : Run σ} (h : r.journal <:+ s.journal) : Tells r [] s := by
  obtain ⟨entries, hjournal⟩ := h
  exact ⟨entries, hjournal.symm, [], .nil, List.nil_sublist _⟩

theorem trans {r s t : Run σ} {xs ys : List Issue} (hrs : Tells r xs s) (hst : Tells s ys t) :
    Tells r (xs ++ ys) t := by
  obtain ⟨older, holder, xs', hxs, hxs'⟩ := hrs
  obtain ⟨newer, hnewer, ys', hys, hys'⟩ := hst
  refine ⟨newer ++ older, by rw [hnewer, holder, List.append_assoc], xs' ++ ys',
    List.rel_append hxs hys, ?_⟩
  rw [List.reverse_append]
  exact hxs'.append hys'

end Tells

namespace Numbers

theorem refl (r : Run σ) : Numbers r [] r :=
  .keep (.refl r)

theorem before {r s t : Run σ} {xs : List Issue} (hrs : Keeps r s) (hst : Numbers s xs t) :
    Numbers r xs t :=
  (Numbers.keep hrs).trans hst

theorem after {r s t : Run σ} {xs : List Issue} (hrs : Numbers r xs s) (hst : Keeps s t) :
    Numbers r xs t := by
  simpa using hrs.trans (.keep hst)

theorem along {α : Type} {issues : α → Run σ → List Issue} {act : Run σ → α → Run σ}
    (h : ∀ x r, Numbers r (issues x r) (act r x)) (xs : List α) (r : Run σ) :
    Numbers r (Interpreter.issuesAlong issues act xs r) (xs.foldl act r) := by
  induction xs generalizing r with
  | nil => exact .refl r
  | cons x rest ih => exact (h x r).trans (ih (act r x))

/-- The numbers follow one another, and the last of them is the last of the session. -/
theorem consecutive {r s : Run σ} {issues : List Issue} (h : Numbers r issues s) :
    s.session.id = r.session.id ∧
      s.session.sequence = r.session.sequence + UInt64.ofNat issues.length ∧
      (∀ issue ∈ issues, issue.session.id = r.session.id) ∧
      issues.map (·.session.sequence) =
        (List.range issues.length).map fun n => r.session.sequence + UInt64.ofNat (n + 1) := by
  induction h with
  | keep h => exact ⟨h.id, by simp [h.sequence], by simp, rfl⟩
  | @give r t issue entry hissue hkeeps hborne =>
    refine ⟨hkeeps.id, hkeeps.sequence, ?_, ?_⟩
    · simp [hissue, Session.advance]
    · simp [hissue, Session.advance]
  | @trans r s t xs ys _ _ hxs hys =>
    obtain ⟨hid, hsequence, hids, hnumbers⟩ := hxs
    obtain ⟨hid', hsequence', hids', hnumbers'⟩ := hys
    refine ⟨hid'.trans hid, ?_, ?_, ?_⟩
    · rw [hsequence', hsequence, List.length_append, UInt64.ofNat_add, UInt64.add_assoc]
    · refine List.forall_mem_append.2 ⟨hids, fun issue hissue => ?_⟩
      rw [hids' issue hissue, hid]
    · -- The second list counts on from where the first one ends.
      rw [List.map_append, hnumbers, hnumbers', List.length_append, List.range_add, List.map_append,
        List.map_map, hsequence]
      refine congrArg _ (List.map_congr_left fun n _ => ?_)
      rw [Function.comp_apply, Nat.add_assoc, UInt64.ofNat_add xs.length, UInt64.add_assoc]

/-- Numbers that are no more than there are differ from one another. -/
theorem nodup {r s : Run σ} {issues : List Issue} (h : Numbers r issues s)
    (hlength : issues.length ≤ UInt64.size) : (issues.map (·.session.sequence)).Nodup := by
  obtain ⟨-, -, -, hnumbers⟩ := h.consecutive
  rw [hnumbers]
  refine List.Nodup.map_on ?_ List.nodup_range
  intro a ha b hb hab
  have ha := List.mem_range.1 ha
  have hb := List.mem_range.1 hb
  -- Numbers come round again only after all of them.
  have hsame := congrArg UInt64.toNat ((UInt64.add_right_inj _).1 hab)
  simp only [UInt64.toNat_ofNat', UInt64.size] at hsame hlength
  omega

/-- The ids that are made of them for sends differ then, too. -/
theorem distinct_sendIds {r s : Run σ} {issues : List Issue} (h : Numbers r issues s)
    (hlength : issues.length ≤ UInt64.size) : (issues.filterMap Issue.sendId?).Nodup := by
  obtain ⟨-, -, hids, -⟩ := h.consecutive
  have hnumbers : issues.Pairwise fun x y => x.session.sequence ≠ y.session.sequence :=
    List.pairwise_map.1 (h.nodup hlength)
  refine List.pairwise_filterMap.2 (hnumbers.imp_of_mem ?_)
  intro x y hx hy hne a ha b hb
  rw [Issue.sendId?_eq_some ha, Issue.sendId?_eq_some hb]
  exact mt (Session.sequence_of_sendId ((hids x hx).trans (hids y hy).symm)) hne

theorem tells {r s : Run σ} {issues : List Issue} (h : Numbers r issues s) :
    Tells r issues s := by
  induction h with
  | keep h => exact .of_suffix h.journal
  | @give r t issue entry hissue hkeeps hborne =>
    obtain ⟨entries, hjournal⟩ := hkeeps.journal
    refine ⟨entry :: entries, congrArg (entry :: ·) hjournal.symm, [entry],
      .cons hborne .nil, ?_⟩
    simp
  | trans _ _ hxs hys => exact hxs.trans hys

end Numbers

namespace Interpreter

variable (m : Interpreter σ)

theorem numbers_send (owner : Nat) (s : Send) (r : Run σ) :
    Numbers r (m.sendIssues owner s r) (m.send owner s r).2 := by
  unfold send sendIssues
  dsimp only
  cases m.evaluator.eventName (m.viewOf r owner) s with
  | error e => exact .refl r
  | ok event =>
    cases m.evaluator.payload (m.viewOf r owner) s with
    | error e => exact .refl r
    | ok data =>
      cases s.id with
      | some id =>
        dsimp only
        split
        · exact .keep (.raise r _)
        · exact .keep ((Keeps.hear r _).trans (.note _ _))
      | none =>
        dsimp only
        split
        · exact .give rfl (.mapSession _ fun _ => ⟨rfl, rfl⟩) rfl
        · exact .give rfl (.hear _ _) rfl

mutual

theorem numbers_perform (owner : Nat) (action : Action) (r : Run σ) :
    Numbers r (m.actionIssues owner action r) (m.perform owner action r).2 := by
  match action with
  | .assign location expr => exact .keep (m.keeps_assign owner location expr r)
  | .declare name expr => exact .keep (m.keeps_declare owner name expr r)
  | .log label expr => exact .keep (m.keeps_log owner label expr r)
  | .raise event => exact .keep (.raise r _)
  | .cancel sendId => exact .keep (m.keeps_cancelSend sendId r)
  | .send s => exact m.numbers_send owner s r
  | .choose branches otherwise =>
    have hbranches := numbers_performFirst owner branches r
    simp only [perform, actionIssues]
    cases hfirst : m.performFirst owner branches r with
    | some outcome =>
      rw [List.append_nil]
      exact hbranches.1 outcome hfirst
    | none =>
      rw [hbranches.2 hfirst]
      exact numbers_performAll owner otherwise r

theorem numbers_performAll (owner : Nat) (actions : List Action) (r : Run σ) :
    Numbers r (m.actionsIssues owner actions r) (m.performAll owner actions r).2 := by
  match actions with
  | [] => exact .refl r
  | action :: rest =>
    have hfirst := numbers_perform owner action r
    simp only [performAll, actionsIssues]
    cases hout : m.perform owner action r with
    | mk failure s =>
      rw [hout] at hfirst
      cases failure with
      | some e => simpa using hfirst
      | none => exact hfirst.trans (numbers_performAll owner rest s)

/-- Conditions that do not hold take no number. -/
theorem numbers_performFirst (owner : Nat) (branches : List Branch) (r : Run σ) :
    (∀ outcome, m.performFirst owner branches r = some outcome →
        Numbers r (m.branchIssues owner branches r) outcome.2) ∧
      (m.performFirst owner branches r = none → m.branchIssues owner branches r = []) := by
  match branches with
  | [] => exact ⟨nofun, fun _ => rfl⟩
  | .mk condition actions :: rest =>
    have hrest := numbers_performFirst owner rest r
    have hall := numbers_performAll owner actions r
    simp only [performFirst, branchIssues]
    cases m.evaluator.holds (m.viewOf r owner) condition with
    | error e =>
      refine ⟨?_, nofun⟩
      rintro outcome ⟨⟩
      exact .refl r
    | ok verdict =>
      cases verdict with
      | false => exact hrest
      | true =>
        refine ⟨?_, nofun⟩
        rintro outcome ⟨⟩
        exact hall

end

theorem numbers_runBlock (block : Block) (owner : Nat) (actions : List Action) (r : Run σ) :
    Numbers r (m.blockIssues block owner actions r) (m.runBlock block owner actions r) := by
  have hall := m.numbers_performAll owner actions (r.note (.began block))
  have hbegun : Keeps r (r.note (.began block)) := .note r _
  refine .before hbegun ?_
  unfold runBlock runActions
  split
  · next hout =>
    rw [hout] at hall
    exact hall
  · next hout =>
    rw [hout] at hall
    exact hall.after ((Keeps.note _ _).trans (.raise _ _))

theorem numbers_runInitial (step : Step) (s : Nat) (r : Run σ) :
    Numbers r (m.initialIssues step s r) (m.runInitial step s r) := by
  unfold runInitial initialIssues
  cases m.chart.defaultTransition? s with
  | none => exact .refl r
  | some t =>
    dsimp only
    split
    · exact m.numbers_runBlock _ s _ r
    · exact .refl r

theorem numbers_runHistory (step : Step) (s h : Nat) (r : Run σ) :
    Numbers r (m.historyIssues step s h r) (m.runHistory step s r h) := by
  unfold runHistory historyIssues
  cases step.historyDefaults.get? h with
  | none => exact .refl r
  | some t => exact m.numbers_runBlock _ s _ r

theorem numbers_leave (s : Nat) (r : Run σ) : Numbers r (m.leaveIssues s r) (m.leave s r) := by
  have hblock := m.numbers_runBlock (.exit s) s (m.chart.node s).onExit r
  have hleft := (hblock.after (m.keeps_cancelInvokes s _)).after
    (.mapSession _ (f := fun session =>
      { session.withdraw s with pendingInvokes := session.pendingInvokes.erase s })
      fun _ => ⟨rfl, rfl⟩)
  unfold leave
  dsimp only
  split
  · exact hleft.after (.of_marks (m.marks_reopenAround s _ : Marks (fun _ => True) _ _))
  · exact hleft

theorem numbers_fire (t : Nat) (r : Run σ) : Numbers r (m.fireIssues t r) (m.fire t r) :=
  m.numbers_runBlock _ _ _ r

theorem numbers_enter (step : Step) (s : Nat) (r : Run σ) :
    Numbers r (m.enterIssues step s r) (m.enter step s r) := by
  have hwithdrawn : Keeps r (r.mapSession (·.withdraw s)) := .mapSession r fun _ => ⟨rfl, rfl⟩
  have hentry := m.numbers_runBlock (.entry s) s (m.chart.node s).onEntry
    (r.mapSession (·.withdraw s))
  have hdefaults := fun t => (m.numbers_runInitial step s t).trans
    (.along (m.numbers_runHistory step s) (m.chart.node s).histories _)
  have hcontent := Numbers.before hwithdrawn (hentry.trans (hdefaults _))
  have hawaits : ∀ t : Run σ, Keeps t (if (m.chart.node s).invokes.isEmpty then t
      else t.mapSession fun session =>
        { session with pendingInvokes := session.pendingInvokes.insert s }) := by
    intro t
    split
    · exact .refl t
    · exact .mapSession t fun _ => ⟨rfl, rfl⟩
  unfold enter
  dsimp only
  rw [runDefaults_eq]
  split
  · exact (hcontent.after (hawaits _)).after
      (.of_marks (m.marks_completeAround (fun _ => trivial) trivial _ : Marks (fun _ => True) _ _))
  · exact hcontent.after (hawaits _)

theorem numbers_runContent (step : Step) (r : Run σ) :
    Numbers r (m.contentIssues step r) (m.runContent step r) :=
  (Numbers.along m.numbers_leave _ r).trans
    ((Numbers.along m.numbers_fire _ _).trans (.along (m.numbers_enter step) _ _))

theorem numbers_carryOut (step : Step) (r : Run σ) :
    Numbers r (m.contentIssues step r) (m.carryOut step r).2 :=
  (m.numbers_runContent step r).after (m.keeps_moveConfiguration step _)

/-- A plan gives out numbers only if it is approved. -/
theorem numbers_plan (plan : Plan) (step : Step) {prepare : Run σ → Run σ}
    (hprepare : ∀ r, Keeps r (prepare r)) (r : Run σ) :
    Numbers r (m.planIssues plan step prepare r)
      (match m.approve plan r with
        | (some e, s) => (.error e, s)
        | (none, s) => m.carryOut (m.planned plan step) (prepare s) :
          Except StepError Step × Run σ).2 := by
  have happroved := m.keeps_approve plan r
  unfold planIssues
  cases happrove : m.approve plan r with
  | mk refusal s =>
    rw [happrove] at happroved
    cases refusal with
    | some e => exact .keep happroved
    | none => exact .before (happroved.trans (hprepare s)) (m.numbers_carryOut _ _)

theorem numbers_initialStep (r : Run σ) :
    Numbers r (m.startIssues r) (m.initialStep r).2 := by
  have hreported : Keeps r (r.report .noInitial "document has no initial states" none) :=
    .note r _
  unfold initialStep startIssues
  dsimp only
  split
  · exact .before hreported (m.numbers_carryOut (Step.start none .empty) _)
  · exact m.numbers_plan _ _ Keeps.refl r

theorem numbers_microstep (event : Option Event) (r : Run σ) :
    Numbers r (m.microstepIssues event r) (m.microstep event r).2 := by
  have hbound : Keeps r (r.mapSession (·.bindEvent event)) :=
    .mapSession r fun _ => ⟨rfl, rfl⟩
  have hselected : Keeps r (m.selectFor event r).2 := hbound.trans (m.keeps_select _ _ _)
  refine .before hselected ?_
  unfold microstep microstepIssues
  dsimp only
  split
  · exact .refl _
  · refine m.numbers_plan _ _ ?_ _
    exact fun r => .mapSession r fun _ => ⟨rfl, rfl⟩

theorem numbers_startInvoke (s : Nat) (i : Invoke) (r : Run σ) :
    Numbers r (m.invokeIssues s i r) (m.startInvoke s i r) := by
  unfold startInvoke invokeIssues
  cases i.id with
  | some id =>
    have hasked : ∀ t : Run σ, Keeps (m.invokeParams s i.params r).2 t → Keeps r t :=
      fun t h => (m.keeps_invokeParams s i.params r).trans h
    dsimp only
    split
    · exact .keep (hasked _ (((Keeps.hear _ _).trans (.note _ _)).trans
        (.mapSession _ fun _ => ⟨rfl, rfl⟩)))
    · exact .keep (hasked _ (((Keeps.hear _ _).trans (.note _ _)).trans
        (m.keeps_invokeRefused _ _ _ _)))
  | none =>
    have hasked := m.keeps_invokeParams s i.params (r.mapSession Session.advance)
    dsimp only
    split
    · exact .after (.give rfl (hasked.trans (.hear _ _)) (by exact ⟨rfl, rfl⟩))
        (.mapSession _ fun _ => ⟨rfl, rfl⟩)
    · exact .after (.give rfl (hasked.trans (.hear _ _)) (by exact ⟨rfl, rfl⟩))
        (m.keeps_invokeRefused _ _ _ _)

theorem numbers_startServices (s : Nat) (r : Run σ) :
    Numbers r (m.servicesIssues s r) (m.startServices r s) := by
  unfold startServices servicesIssues
  split
  · exact .along (m.numbers_startInvoke s) _ r
  · exact .refl r

theorem numbers_startInvokes (r : Run σ) :
    Numbers r (m.invokesIssues r) (m.startInvokes r) := by
  have hforgot : Keeps r
      (r.mapSession fun session => { session with pendingInvokes := ∅ }) :=
    .mapSession r fun _ => ⟨rfl, rfl⟩
  rw [startInvokes_eq]
  exact .before hforgot (.along m.numbers_startServices _ _)

theorem numbers_round (r : Run σ) : Numbers r (m.roundIssues r) (m.round r).run := by
  have hfirst := m.numbers_microstep none r
  unfold round roundIssues
  generalize m.microstep none r = out at hfirst ⊢
  obtain ⟨result, s⟩ := out
  cases result with
  | error e => exact hfirst.trans (.refl s)
  | ok step =>
    dsimp only
    split
    · exact hfirst.trans (.refl s)
    · cases htake : takeInternal s with
      | none => exact hfirst.trans (.refl s)
      | some taken =>
        obtain ⟨e, t⟩ := taken
        have hsecond := hfirst.trans (.before (keeps_takeInternal htake)
          (m.numbers_microstep (some e) t))
        dsimp only
        generalize m.microstep (some e) t = out at hsecond ⊢
        obtain ⟨result, u⟩ := out
        cases result with
        | error e => exact hsecond
        | ok step => exact hsecond

/-- The loop of a macrostep, by induction on the microsteps that are left. -/
theorem numbers_settle (budget : Nat) (r : Run σ) :
    Numbers r (m.settleIssues budget r) (m.settle budget r).2 := by
  induction budget generalizing r with
  | zero => exact .keep (m.keeps_exhausted r)
  | succ budget ih =>
    have hround := m.numbers_round r
    rw [settle_succ, settleIssues]
    generalize m.round r = out at hround ⊢
    cases out with
    | failed e s => exact hround.trans (.refl s)
    | moved step s => exact hround.trans (ih s)
    | idle s =>
      have hstarted := hround.trans (m.numbers_startInvokes s)
      have hagain := m.numbers_round (m.startInvokes s)
      -- Services take their numbers before what they raise is taken in.
      refine hround.trans ?_
      unfold pursue serve
      dsimp only
      split
      · exact (m.numbers_startInvokes s).trans (.keep (m.keeps_settled _))
      · refine (m.numbers_startInvokes s).trans ?_
        generalize m.round (m.startInvokes s) = out at hagain ⊢
        cases out with
        | failed e t => exact hagain.trans (.refl t)
        | moved step t => exact hagain.trans (ih t)
        | idle t => exact hagain.trans (.keep (m.keeps_settled t))

theorem numbers_complete {r : Run σ} {issues : List Issue}
    {first : Except StepError Step × Run σ} (h : Numbers r issues first.2) :
    Numbers r (issues ++ m.completeIssues first) (m.complete first).2 := by
  refine h.trans ?_
  obtain ⟨result, s⟩ := first
  cases result with
  | error e =>
    rw [complete_error]
    exact .keep (m.keeps_conclude _ _)
  | ok step =>
    rw [complete_ok]
    exact (m.numbers_settle m.config.maxMicrosteps s).after (m.keeps_conclude _ _)

/-- The run from which the numbers of an operation go on. -/
def opened (operation : Operation) (r : Run σ) : Run σ :=
  if operation.clears then m.clear r else r

theorem numbers_operate (operation : Operation) (r : Run σ) :
    Numbers (m.opened operation r) (m.operateIssues operation r) (m.operate operation r).2 := by
  cases operation with
  | go =>
    have hready : Keeps (m.clear r) (m.ready r) :=
      (m.keeps_reset r).trans (.mapSession _ fun _ => ⟨rfl, rfl⟩)
    exact m.numbers_complete (.before hready (m.numbers_initialStep (m.ready r)))
  | reset => exact .keep (m.keeps_reset r)
  | stop => exact .keep (m.keeps_stop r)
  | trigger event =>
    simp only [operate, trigger, operateIssues]
    split
    · exact .refl r
    · split
      · exact .keep (m.keeps_stop r)
      · exact m.numbers_complete (m.numbers_microstep (some event) r)

/-- While the session is not cleared its numbers go on. -/
theorem numbers_operateAll {operations : List Operation}
    (h : ∀ operation ∈ operations, operation.clears = false) (r : Run σ) :
    Numbers r (m.issues operations r) (m.operateAll operations r) := by
  induction operations generalizing r with
  | nil => exact .refl r
  | cons operation rest ih =>
    obtain ⟨hfirst, hrest⟩ := List.forall_mem_cons.1 h
    have hnumbers := m.numbers_operate operation r
    rw [opened, if_neg (by simp [hfirst])] at hnumbers
    exact hnumbers.trans (ih hrest _)

/-- Whatever the operations are, the journal tells what each number is given out for, in order and
under the id that is made of it. -/
theorem tells_operateAll (operations : List Operation) (r : Run σ) :
    Tells r (m.issues operations r) (m.operateAll operations r) := by
  induction operations generalizing r with
  | nil => exact .of_suffix List.suffix_rfl
  | cons operation rest ih =>
    have hopened : r.journal <:+ (m.opened operation r).journal := by
      unfold opened
      split
      · exact (m.keeps_cancelAllInvokes r).journal
      · exact List.suffix_rfl
    have hfirst : Tells r (m.operateIssues operation r) (m.operate operation r).2 :=
      (Tells.of_suffix hopened).trans (m.numbers_operate operation r).tells
    exact hfirst.trans (ih _)

end Interpreter

/-- A beacon that tells of itself when it is lit, and is watched while it is. -/
def Outline.beacon : Outline where
  name := none
  datamodel := none
  initial := []
  states := [
    .mk { StateHead.named "beacon" .plain [] [.on "again" "beacon"] with
      onEntry := [.send ⟨none, some "lit", none, none, none, none, [], [], none⟩]
      invokes := [⟨none, "watch", none, []⟩] } []]
  data := []

theorem Outline.build_beacon : Outline.beacon.build = .ok Outline.beacon.chart :=
  build_eq_ok rfl (by decide +kernel) (by decide +kernel)

namespace Interpreter

def beacon : Interpreter Unit :=
  ⟨Outline.beacon.chart, .minimal, .silent, .default⟩

/-- Until the session is cleared the ids made up for sends differ from one another. Whatever the
run has come from and whatever `operation` is, no two of the ids made up by it and by what follows
are the same, if nothing that follows clears the session and no more numbers are given out than
there are. An operation that clears the session starts the numbers again, with one. -/
theorem nodup_sendIds (m : Interpreter σ) (operation : Operation) {rest : List Operation}
    (hrest : ∀ later ∈ rest, later.clears = false) (r : Run σ)
    (hlength : (m.issues (operation :: rest) r).length ≤ UInt64.size) :
    (m.sendIds (operation :: rest) r).Nodup ∧
      (operation.clears = true →
        (m.issues (operation :: rest) r).map (·.session.sequence) =
          (List.range (m.issues (operation :: rest) r).length).map
            fun n => UInt64.ofNat (n + 1)) := by
  have hnumbers : Numbers (m.opened operation r) (m.issues (operation :: rest) r)
      (m.operateAll (operation :: rest) r) :=
    (m.numbers_operate operation r).trans (m.numbers_operateAll hrest _)
  refine ⟨hnumbers.distinct_sendIds hlength, fun hclears => ?_⟩
  obtain ⟨-, -, -, hsequences⟩ := hnumbers.consecutive
  have hzero : (m.opened operation r).session.sequence = 0 := by
    rw [opened, if_pos hclears]
    rfl
  simpa [hzero] using hsequences

/-- The beacon is lit twice; its sends share their numbers with the services that watch it. -/
theorem nodup_sendIds_beacon :
    let operations : List Operation := [.go, .trigger (.signal "again"), .stop]
    let r := Run.new secondId ()
    beacon.sendIds operations r =
        [secondId.render ++ "-1", secondId.render ++ "-3"] ∧
      (beacon.sendIds operations r).Nodup := by
  intro operations r
  have hrest : ∀ later ∈ [.trigger (.signal "again"), .stop], Operation.clears later = false := by
    decide
  have hlength : (beacon.issues operations r).length ≤ UInt64.size := by decide +kernel
  exact ⟨by decide +kernel, (nodup_sendIds beacon .go hrest r hlength).1⟩

/-- A beacon that is started again makes up the same id for its send as before. -/
theorem exists_sendId_twice : ¬ ∀ (o : Outline) (m : Interpreter Unit), o.build = .ok m.chart →
    ∀ (id : SessionId) (operations : List Operation),
      (m.sendIds operations (Run.new id ())).Nodup := by
  intro h
  exact absurd (h .beacon beacon Outline.build_beacon secondId [.go, .go]) (by decide +kernel)

end Interpreter

end Statechart
