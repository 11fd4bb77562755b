import Statechart.Proofs.Aborting
import Statechart.Proofs.Selecting

/-!
What comes in from outside. Events reach the queue of a run with the answers of its host and in no
other way, and every answer is noted in the journal. So from one point of an operation to a later
one the events that wait are those that waited before, followed by those that the journal tells of.
-/

namespace Statechart

/-- The events that came in with the answer that the entry notes. -/
def Entry.arrivals : Entry → List Event
  | .send _ reply => reply.arrivals
  | .cancelSend _ reply => reply.arrivals
  | .startInvoke _ reply | .cancelInvoke _ reply => reply.arrivals
  | _ => []

/-- The events that came in during a journal, oldest first. -/
def arrivalsIn (journal : List Entry) : List Event :=
  journal.reverse.flatMap Entry.arrivals

theorem arrivalsIn_append (newer older : List Entry) :
    arrivalsIn (newer ++ older) = arrivalsIn older ++ arrivalsIn newer := by
  simp [arrivalsIn]

/-- Entries that are no answers tell of no arrivals. -/
theorem arrivalsIn_eq_nil {entries : List Entry} (h : ∀ e ∈ entries, e.arrivals = []) :
    arrivalsIn entries = [] :=
  List.flatMap_eq_nil_iff.2 fun e he => h e (List.mem_reverse.1 he)

variable {σ : Type}

/-- From the run `r` to the run `s` the events that came in are appended to the queue, and none is
taken from it. -/
def Admits (r s : Run σ) : Prop :=
  ∃ entries, s.journal = entries ++ r.journal ∧ s.queue = r.queue ++ arrivalsIn entries

namespace Admits

theorem of_eq {r s : Run σ} (hjournal : s.journal = r.journal) (hqueue : s.queue = r.queue) :
    Admits r s :=
  ⟨[], hjournal, by simp [hqueue, arrivalsIn]⟩

theorem refl (r : Run σ) : Admits r r :=
  of_eq rfl rfl

theorem mapSession (r : Run σ) (f : Session → Session) : Admits r (r.mapSession f) :=
  of_eq rfl rfl

theorem trans {r s t : Run σ} (hrs : Admits r s) (hst : Admits s t) : Admits r t := by
  obtain ⟨older, hs, hs'⟩ := hrs
  obtain ⟨newer, ht, ht'⟩ := hst
  refine ⟨newer ++ older, by rw [ht, hs, List.append_assoc], ?_⟩
  rw [ht', hs', arrivalsIn_append, List.append_assoc]

theorem tell (r : Run σ) {entries : List Entry} (h : ∀ e ∈ entries, e.arrivals = []) :
    Admits r (r.tell entries) := by
  refine ⟨entries.reverse, rfl, ?_⟩
  rw [arrivalsIn_eq_nil fun e he => h e (List.mem_reverse.1 he), List.append_nil]
  rfl

theorem note (r : Run σ) {e : Entry} (h : e.arrivals = []) : Admits r (r.note e) :=
  ⟨[e], rfl, by simp [arrivalsIn, h, Run.note]⟩

theorem raise (r : Run σ) (e : Event) : Admits r (r.raise e) :=
  (mapSession r _).trans (note _ rfl)

/-- The host answers, and its answer is noted. -/
theorem answered {ε : Type} (r : Run σ) (answer : Reply ε × σ) {e : Entry}
    (h : e.arrivals = answer.1.arrivals) : Admits r ((r.hear answer).note e) :=
  ⟨[e], rfl, by simp [arrivalsIn, h, Run.note, Run.hear]⟩

/-- Steps of a fold, one after the other. -/
theorem foldl {α : Type} {f : Run σ → α → Run σ} (h : ∀ r x, Admits r (f r x)) (xs : List α)
    (r : Run σ) : Admits r (xs.foldl f r) := by
  induction xs generalizing r with
  | nil => exact .refl r
  | cons x rest ih => exact (h r x).trans (ih (f r x))

end Admits

theorem Marks.admits {known : Nat → Prop} {r s : Run σ} (h : Marks known r s) : Admits r s := by
  induction h with
  | trans _ _ hrs hst => exact hrs.trans hst
  | raiseDone r id => exact .raise r _
  | _ => exact .of_eq rfl rfl

theorem Reports.admits {r s : Run σ} (h : Reports r s) : Admits r s := by
  obtain ⟨reports, rfl⟩ := h
  refine ⟨reports.map .report, rfl, ?_⟩
  rw [arrivalsIn_eq_nil (by simp [Entry.arrivals]), List.append_nil]

namespace Interpreter

variable (m : Interpreter σ)

theorem admits_assign (owner : Nat) (location expr : String) (r : Run σ) :
    Admits r (m.assign owner location expr r).2 := by
  unfold assign
  dsimp only
  split
  · exact .refl r
  · split
    · exact .refl r
    · split
      · exact .refl r
      · exact .mapSession r _

theorem admits_declare (owner : Nat) (name : String) (expr : Option String) (r : Run σ) :
    Admits r (m.declare owner name expr r).2 := by
  unfold declare
  dsimp only
  split
  · exact .refl r
  · split
    · exact .mapSession r _
    · split
      · exact .refl r
      · exact .mapSession r _

theorem admits_log (owner : Nat) (label expr : Option String) (r : Run σ) :
    Admits r (m.log owner label expr r).2 := by
  unfold log
  dsimp only
  split
  · exact .note r rfl
  · split
    · exact .refl r
    · exact .note r rfl

theorem admits_dispatch (request : SendRequest) (r : Run σ) :
    Admits r (m.dispatch request r).2 :=
  .answered r (m.host.send request r.world) rfl

theorem admits_send (owner : Nat) (s : Send) (r : Run σ) : Admits r (m.send owner s r).2 := by
  unfold send
  dsimp only
  split
  · exact .refl r
  · split
    · exact .refl r
    · cases s.id with
      | some id =>
        dsimp only
        split
        · exact .raise r _
        · exact m.admits_dispatch _ r
      | none =>
        have hadvance : Admits r (r.mapSession Session.advance) := .mapSession r _
        dsimp only
        split
        · exact hadvance.trans (.raise _ _)
        · exact hadvance.trans (m.admits_dispatch _ _)

theorem admits_cancelSend (sendId : String) (r : Run σ) : Admits r (m.cancelSend sendId r) :=
  .answered r (m.host.cancelSend sendId r.world) rfl

theorem admits_perform {action : Action} (hplain : action.IsPlain) (owner : Nat) (r : Run σ) :
    Admits r (m.perform owner action r).2 := by
  cases action with
  | assign location expr => exact m.admits_assign owner location expr r
  | declare name expr => exact m.admits_declare owner name expr r
  | log label expr => exact m.admits_log owner label expr r
  | raise event => exact .raise r _
  | send s => exact m.admits_send owner s r
  | cancel sendId => exact m.admits_cancelSend sendId r
  | choose branches otherwise => exact hplain.elim

theorem Executes.admits {m : Interpreter σ} {owner : Nat} {actions : List Action} {r s : Run σ}
    {outcome : Option ContentError} (h : m.Executes owner actions r outcome s) : Admits r s :=
  h.along .refl .trans fun hplain r => m.admits_perform hplain owner r

theorem admits_runBlock (block : Block) (owner : Nat) (actions : List Action) (r : Run σ) :
    Admits r (m.runBlock block owner actions r) := by
  have hbegan : Admits r (r.note (.began block)) := .note r rfl
  have hactions := (m.executes_performAll owner actions (r.note (.began block))).admits
  unfold runBlock runActions
  cases hperform : m.performAll owner actions (r.note (.began block)) with
  | mk outcome s =>
    rw [hperform] at hactions
    cases outcome with
    | none => exact hbegan.trans hactions
    | some e => exact ((hbegan.trans hactions).trans (.note s rfl)).trans (.raise _ _)

theorem admits_declareAll (owner : Option Nat) (data : List Data) (r : Run σ) :
    Admits r (m.declareAll owner data r) := by
  refine .foldl (fun r d => Admits.trans ?_ (.mapSession _ _)) data r
  cases d.expr with
  | none => exact .refl r
  | some expr =>
    dsimp only
    split
    · exact .refl r
    · exact (Admits.note r rfl).trans (.raise _ _)

theorem admits_initializeData (r : Run σ) : Admits r (m.initializeData r) :=
  (m.admits_declareAll none m.chart.data r).trans
    (.foldl (fun r s => m.admits_declareAll (some s) (m.chart.node s).data r) _ _)

theorem admits_invokeRefused (s : Nat) (invokeId : String) (e : InvokeError) (r : Run σ) :
    Admits r (m.invokeRefused s invokeId e r) :=
  (Admits.note r rfl).trans (.raise _ _)

theorem admits_invokeParams (s : Nat) (params : List Param) (r : Run σ) :
    Admits r (m.invokeParams s params r).2 := by
  refine List.foldlRecOn
    (motive := fun out : SortedMap String Json.Value × Run σ => Admits r out.2) params _
    (.refl r) ?_
  rintro ⟨known, r'⟩ hout p _
  dsimp only
  split
  · exact hout
  · exact Admits.trans hout (.note r' rfl)

theorem admits_startInvoke (s : Nat) (i : Invoke) (r : Run σ) :
    Admits r (m.startInvoke s i r) := by
  have hask : ∀ (request : InvokeRequest) (t : Run σ), Admits r t →
      Admits r ((t.hear (m.host.startInvoke request t.world)).note
        (.startInvoke request (m.host.startInvoke request t.world).1)) :=
    fun request t ht => ht.trans (.answered t _ rfl)
  unfold startInvoke
  cases i.id with
  | some id =>
    have hparams := m.admits_invokeParams s i.params r
    dsimp only
    split
    · exact (hask _ _ hparams).trans (.mapSession _ _)
    · exact (hask _ _ hparams).trans (m.admits_invokeRefused s id _ _)
  | none =>
    have hparams : Admits r (m.invokeParams s i.params (r.mapSession Session.advance)).2 :=
      (Admits.mapSession r _).trans (m.admits_invokeParams s i.params _)
    dsimp only
    split
    · exact (hask _ _ hparams).trans (.mapSession _ _)
    · exact (hask _ _ hparams).trans (m.admits_invokeRefused s _ _ _)

theorem admits_startInvokes (r : Run σ) : Admits r (m.startInvokes r) := by
  refine (Admits.mapSession r _).trans (.foldl (fun r s => ?_) _ _)
  split
  · exact .foldl (fun r i => m.admits_startInvoke s i r) _ r
  · exact .refl r

theorem admits_cancelInvoke (s : Nat) (invokeId : String) (r : Run σ) :
    Admits r (m.cancelInvoke s invokeId r) := by
  have hask : Admits r ((r.hear (m.host.cancelInvoke invokeId r.world)).note
      (.cancelInvoke invokeId (m.host.cancelInvoke invokeId r.world).1)) := .answered r _ rfl
  unfold cancelInvoke
  dsimp only
  split
  · exact hask
  · exact hask.trans (m.admits_invokeRefused s invokeId _ _)

theorem admits_cancelInvokes (s : Nat) (r : Run σ) : Admits r (m.cancelInvokes s r) := by
  unfold cancelInvokes
  split
  · exact .refl r
  · exact (Admits.mapSession r _).trans
      (.foldl (fun r invokeId => m.admits_cancelInvoke s invokeId r) _ _)

theorem admits_cancelAllInvokes (r : Run σ) : Admits r (m.cancelAllInvokes r) :=
  .foldl (fun r s => m.admits_cancelInvokes s r) _ r

theorem admits_stop (r : Run σ) : Admits r (m.stop r) :=
  (m.admits_cancelAllInvokes r).trans (.mapSession _ _)

theorem admits_selectFor (event : Option Event) (r : Run σ) :
    Admits r (m.selectFor event r).2 := by
  obtain ⟨dropped, hselect, -⟩ := m.selectFor_tell event r
  rw [hselect]
  refine (Admits.mapSession r (·.bindEvent event)).trans (.tell _ ?_)
  intro e he
  rcases List.mem_append.1 he with hguard | hdrop
  · obtain ⟨t, -, ht⟩ := List.mem_flatMap.1 hguard
    unfold guardStory at ht
    split at ht
    · cases ht
    · split at ht
      · obtain rfl := List.mem_singleton.1 ht
        rfl
      · rcases List.mem_pair.1 ht with rfl | rfl <;> rfl
  · obtain ⟨pair, -, rfl⟩ := List.mem_map.1 hdrop
    rfl

theorem admits_leave (s : Nat) (r : Run σ) : Admits r (m.leave s r) := by
  have hended := (m.admits_runBlock (.exit s) s (m.chart.node s).onExit r).trans
    (m.admits_cancelInvokes s _)
  unfold leave
  dsimp only
  split
  · exact (hended.trans (.mapSession _ _)).trans
      (m.marks_reopenAround s _ : Marks (fun _ => True) _ _).admits
  · exact hended.trans (.mapSession _ _)

theorem admits_fire (t : Nat) (r : Run σ) : Admits r (m.fire t r) :=
  m.admits_runBlock _ _ _ r

theorem admits_runDefaults (step : Step) (s : Nat) (r : Run σ) :
    Admits r (m.runDefaults step s r) := by
  refine Admits.trans ?_ (.foldl (fun r h => ?_) _ _)
  · split
    · split
      · exact m.admits_runBlock _ _ _ r
      · exact .refl r
    · exact .refl r
  · split
    · exact m.admits_runBlock _ _ _ r
    · exact .refl r

theorem admits_enter (step : Step) (s : Nat) (r : Run σ) : Admits r (m.enter step s r) := by
  have hcontent := ((Admits.mapSession r (·.withdraw s)).trans
    (m.admits_runBlock (.entry s) s (m.chart.node s).onEntry _)).trans
    (m.admits_runDefaults step s _)
  have hawait : ∀ r : Run σ, Admits r (if (m.chart.node s).invokes.isEmpty then r
      else r.mapSession fun session =>
        { session with pendingInvokes := session.pendingInvokes.insert s }) := by
    intro r
    split
    · exact .refl r
    · exact .mapSession r _
  unfold enter
  dsimp only
  split
  · exact (hcontent.trans (hawait _)).trans
      (m.marks_completeAround (fun _ => trivial) trivial _ : Marks (fun _ => True) _ _).admits
  · exact hcontent.trans (hawait _)

theorem admits_carryOut (step : Step) (r : Run σ) : Admits r (m.carryOut step r).2 := by
  have hcontent : Admits r (m.runContent step r) :=
    ((Admits.foldl (fun r s => m.admits_leave s r) _ r).trans
      (.foldl (fun r t => m.admits_fire t r) _ _)).trans
      (.foldl (fun r s => m.admits_enter step s r) _ _)
  unfold carryOut moveConfiguration
  split
  · exact hcontent.trans (.mapSession _ _)
  · exact hcontent.trans (.mapSession _ _)

theorem admits_microstep (event : Option Event) (r : Run σ) :
    Admits r (m.microstep event r).2 := by
  refine leaves_iff.1 (leaves_microstep (P := Admits r) event (m.admits_selectFor event r) ?_ ?_)
  · intro s t e hs hreports
    exact hs.trans hreports.admits
  · intro ts s t step _ hs hreports
    exact leaves_iff.2 (((hs.trans hreports.admits).trans (.mapSession _ _)).trans
      (m.admits_carryOut _ _))

theorem admits_initialStep (r : Run σ) : Admits r (m.initialStep r).2 := by
  refine leaves_iff.1 (leaves_initialStep (P := Admits r) ?_ ?_ ?_)
  · intro t e hreports
    exact hreports.admits
  · intro t hreports
    exact leaves_iff.2 (hreports.admits.trans (m.admits_carryOut _ t))
  · intro t hreports
    exact leaves_iff.2 (hreports.admits.trans (m.admits_carryOut _ t))

theorem admits_reset (r : Run σ) : Admits r (m.reset r) :=
  (((m.admits_cancelAllInvokes r).trans (.mapSession _ _)).trans
    (m.admits_initializeData _)).trans (.mapSession _ _)

/-- Whatever has come in since the run `r` lasts through all that is done. -/
theorem lasts_admits (r : Run σ) : m.Lasts (Admits r) (fun _ => Admits r) (Admits r) where
  microstep event h := leaves_iff.2 (h.trans (m.admits_microstep event _))
  take {s t e} h htake := by
    unfold takeInternal at htake
    split at htake
    · cases htake
    · obtain ⟨-, rfl⟩ := Prod.mk.inj (Option.some.inj htake)
      exact (h.trans (.mapSession _ _)).trans (.note _ rfl)
  startInvokes h := h.trans (m.admits_startInvokes _)
  settled {s} h := by
    unfold settled
    dsimp only
    split
    · exact (h.trans (.mapSession _ _)).trans (m.admits_stop _)
    · exact h.trans (.mapSession _ _)
  exhausted h := ((h.trans (.note _ rfl)).trans (m.admits_stop _)).trans (.mapSession _ _)
  fail h := h.trans (m.admits_stop _)
  start h := leaves_iff.2 (((h.trans (m.admits_reset _)).trans (.mapSession _ _)).trans
    (m.admits_initialStep _))
  running h _ := h
  reset h := h.trans (m.admits_reset _)
  stop h := h.trans (m.admits_stop _)

/-- No operation takes an event from the queue, and every event that comes in meanwhile is put at
its end. -/
theorem admits_operate (operation : Operation) (r : Run σ) :
    Admits r (m.operate operation r).2 :=
  ((m.lasts_admits r).operate operation (.refl r)).1

end Interpreter

end Statechart
