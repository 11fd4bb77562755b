import Statechart.Proofs.Conditions
import Statechart.Proofs.Lookups
import Statechart.Proofs.Resume

/-!
Assignments. An assignment writes one variable in one scope, that of the nearest place that declares
it. The states that see this declaration read the new value; what other states read, and what any
state reads of other variables, stays as it was.
-/

namespace Statechart

namespace Interpreter

variable {σ : Type}

/-- The runs in which a session may be found: between operations; at the beginning of a microstep
that an operation makes; and on the way from there, when the event has been bound, while transitions
are selected and approved, once the histories have been recorded, and while content runs. -/
inductive Underway (m : Interpreter σ) : Run σ → Prop where
  | rest {r : Run σ} (h : m.Reachable r) : Underway m r
  | begun {r : Run σ} (h : m.Reachable r) {operation : Operation} {attempt : Attempt σ}
      (hattempt : attempt ∈ m.operateAttempts operation r) : Underway m attempt.before
  | bound {r : Run σ} (h : Underway m r) (event : Option Event) :
    Underway m (r.mapSession (·.bindEvent event))
  | reported {r s : Run σ} (h : Underway m r) (hreports : Reports r s) : Underway m s
  | recorded {r : Run σ} (h : Underway m r) (plan : Plan) : Underway m (m.recordFor plan r)
  | evolved {r s : Run σ} (h : Underway m r)
      (hevolves : Evolves (· < m.chart.nodes.size) r s) : Underway m s

variable {m : Interpreter σ}

/-- The scopes are in place at any time. -/
theorem Underway.laidOut (hw : m.chart.WellFormed) {r : Run σ} (h : m.Underway r) :
    ∃ layout, r.session.LaidOut m.chart layout := by
  induction h with
  | rest h =>
    rcases (h.newOrSound hw).1 with ⟨id, hnew⟩ | hsound
    · rw [hnew]
      exact ⟨none, Session.laidOut_new m.chart id⟩
    · exact ⟨_, hsound.laidOut⟩
  | @begun r h operation attempt hattempt =>
    rcases (lasts_sound hw).before_operateAttempts operation (h.newOrSound hw).1 attempt
      hattempt with hready | hsound
    · rw [hready]
      exact ⟨_, { (m.sound_reset r).2.1 with }⟩
    · exact ⟨_, hsound.laidOut⟩
  | bound _ event ih => exact ih.imp fun _ hlaid => hlaid.bindEvent event
  | reported _ hreports ih =>
    rw [hreports.notes.session]
    exact ih
  | recorded _ plan ih => exact ih.imp fun _ hlaid => { hlaid with }
  | evolved _ hevolves ih => exact ih.imp fun _ hlaid => (hevolves.laidOut hlaid).1

/-- The content of a step begins once the step is approved and the histories are recorded. -/
theorem Underway.content {r : Run σ} (h : m.Underway r) (event : Option Event) {ts : List Nat}
    {s t : Run σ} (hselect : m.selectFor event r = (ts, s))
    (happrove : m.approve (m.planFor ts s) s = (none, t)) :
    m.Underway (m.recordFor (m.planFor ts s) t) := by
  have hselected := (h.bound event).evolved (.acts (m.acts_selectFor event r))
  rw [hselect] at hselected
  have happroved := hselected.reported (m.reports_approve (m.planFor ts s) s)
  rw [happrove] at happroved
  exact happroved.recorded _

/-- After some actions the next one begins. -/
theorem Underway.performAll {r : Run σ} (h : m.Underway r) (owner : Nat) (actions : List Action) :
    m.Underway (m.performAll owner actions r).2 :=
  h.evolved (.acts (m.performs_performAll owner actions r).acts)

/-- What an assignment that succeeds comes to. -/
theorem assign_ok {owner : Nat} {name expr : String} {r r' : Run σ}
    (h : m.assign owner name expr r = (none, r')) :
    isSystemVariable name = false ∧ ∃ value n,
      m.evaluator.eval (m.viewOf r owner) expr = .ok value ∧
      r.session.scopes.holder? (r.session.scopeOf m.chart owner) name = some n ∧
      r' = r.mapSession fun session =>
        { session with scopes := session.scopes.setLocal n name value } := by
  unfold assign at h
  dsimp only at h
  split at h
  · cases h
  · next hsystem =>
    split at h
    · cases h
    · next hhas =>
      split at h
      · cases h
      · next value heval =>
        obtain ⟨n, hholder, -⟩ := Scopes.holder?_isSome (by simpa [View.has] using hhas)
        have hholder : r.session.scopes.holder? (r.session.scopeOf m.chart owner) name = some n :=
          hholder
        refine ⟨by simpa using hsystem, value, n, heval, hholder, ?_⟩
        rw [← (Prod.mk.inj h).2]
        simp [writeFrom, Run.mapSession, Scopes.set, hholder]

/-- An assignment writes the nearest declaration and nothing else. The state for which it is made
reads the new value, and so does every state that sees the same declaration; every other state, and
of every other variable every state, reads what it read before. No scope gains or loses a variable,
and nothing else of the run changes. -/
theorem assign_writes_nearest {o : Outline} (hbuild : o.build = .ok m.chart) {r r' : Run σ}
    (hr : m.Underway r) {s : Nat} {name expr : String}
    (h : m.perform s (.assign name expr) r = (none, r')) :
    ∃ value place, m.evaluator.eval (m.viewOf r s) expr = .ok value ∧
      r.session.declarer? m.chart name s = some place ∧
      (m.viewOf r' s).get? name = some value ∧
      (∀ t other, (m.viewOf r' t).get? other =
        if other = name ∧ r.session.declarer? m.chart name t = some place then some value
        else (m.viewOf r t).get? other) ∧
      (∀ n other, r'.session.scopes.hasLocal n other = r.session.scopes.hasLocal n other) ∧
      ∃ n, r.session.home? place = some n ∧
        r' = { r with session := { r.session with
          scopes := r.session.scopes.setLocal n name value } } := by
  have hw := (Outline.wellFormed_of_build hbuild).1
  obtain ⟨_, hlaid⟩ := hr.laidOut hw
  rw [perform] at h
  obtain ⟨hname, value, n, heval, hholder, rfl⟩ := assign_ok h
  have hfound := hholder
  rw [hlaid.holder?_scopeOf hw hname] at hfound
  obtain ⟨place, hplace, hhome⟩ := Option.bind_eq_some_iff.1 hfound
  have hlocal : r.session.scopes.hasLocal n name = true := by
    simpa using List.find?_some hholder
  -- A state sees the scope written to if and only if it sees the declaration.
  have hsees : ∀ t, r.session.scopes.holder? (r.session.scopeOf m.chart t) name = some n ↔
      r.session.declarer? m.chart name t = some place := by
    intro t
    rw [hlaid.holder?_scopeOf hw hname, Option.bind_eq_some_iff]
    constructor
    · rintro ⟨other, hother, hhome'⟩
      rw [hother, hlaid.home?_injective hhome' hhome]
    · intro ht
      exact ⟨place, ht, hhome⟩
  have hreads : ∀ t other, (m.viewOf (r.mapSession fun session =>
      { session with scopes := session.scopes.setLocal n name value }) t).get? other =
      if other = name ∧ r.session.declarer? m.chart name t = some place then some value
      else (m.viewOf r t).get? other := by
    intro t other
    have hread := Scopes.get?_setLocal hlocal value (r.session.scopeOf m.chart t) other
    simp only [hsees] at hread
    exact hread
  refine ⟨value, place, heval, hplace, ?_, hreads, ?_, n, hhome, rfl⟩
  · rw [hreads, if_pos ⟨rfl, hplace⟩]
  · exact Scopes.hasLocal_setLocal hlocal value

end Interpreter

/-- A cupboard and a table in a room. The room has a book, the cupboard another, and the box in the
cupboard a third. From the drawer of the cupboard a book is lent. -/
def Outline.room : Outline where
  name := none
  datamodel := none
  initial := []
  states := [
    .mk { StateHead.named "cupboard" .plain [] [] with
      data := [⟨"book", none, some (.text "atlas")⟩] } [
      .mk (.named "drawer" .plain []
        [⟨["lend"], none, [], .internal, [.assign "book" "lent"]⟩]) [],
      .mk { StateHead.named "box" .plain [] [] with
        data := [⟨"book", none, some (.text "diary")⟩] } []],
    .mk (.named "table" .plain [] []) []]
  data := [⟨"book", none, some (.text "novel")⟩]

theorem Outline.build_room : Outline.room.build = .ok Outline.room.chart :=
  build_eq_ok rfl (by decide +kernel) (by decide +kernel)

namespace Interpreter

def reader : Interpreter Unit :=
  ⟨Outline.room.chart, .minimal, .silent, .default⟩

def readerRun : Run Unit :=
  (reader.go (Run.new secondId ())).2

/-- The book is to be lent, and the content of the transition begins. -/
def lendingRun : Run Unit :=
  let selected := reader.selectFor (some (.signal "lend")) readerRun
  let plan := reader.planFor selected.1 selected.2
  reader.recordFor plan (reader.approve plan selected.2).2

theorem underway_lendingRun : reader.Underway lendingRun :=
  (Underway.rest ((Reachable.new secondId ()).operate .go)).content (some (.signal "lend")) rfl
    (Prod.ext (by decide +kernel) rfl)

/-- The book of the cupboard is lent, seen from the drawer; those of the box and of the room, which
the table sees, are still there. -/
theorem assign_writes_nearest_room :
    ∃ r', reader.perform 1 (.assign "book" "lent") lendingRun = (none, r') ∧
      (reader.viewOf r' 1).get? "book" = some (.text "lent") ∧
      (∀ t ∈ [2, 4], (reader.viewOf r' t).get? "book" =
        (reader.viewOf lendingRun t).get? "book") := by
  obtain ⟨failure, r', hperform⟩ :
      ∃ failure r', reader.perform 1 (.assign "book" "lent") lendingRun = (failure, r') :=
    ⟨_, _, rfl⟩
  obtain rfl : failure = none :=
    (congrArg Prod.fst hperform).symm.trans (by decide +kernel)
  obtain ⟨value, place, heval, hplace, hread, hreads, -⟩ :=
    assign_writes_nearest Outline.build_room underway_lendingRun hperform
  obtain rfl : .text "lent" = value := Except.ok.inj heval
  have hcupboard : lendingRun.session.declarer? reader.chart "book" 1 = some (.state 0) := by
    decide +kernel
  have hothers : ∀ t ∈ [2, 4],
      lendingRun.session.declarer? reader.chart "book" t ≠ some (.state 0) := by
    decide +kernel
  obtain rfl : place = .state 0 := Option.some.inj (hplace.symm.trans hcupboard)
  refine ⟨r', hperform, hread, fun t ht => ?_⟩
  rw [hreads, if_neg (fun h => hothers t ht h.2)]

end Interpreter

end Statechart
