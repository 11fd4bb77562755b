import Statechart.Interpreter.Microstep
import Statechart.Proofs.Chart.Tree

/-!
What content and services can do. Whatever runs between two changes of the configuration comes
down to a few small changes: entries in the journal, answers of the host, events raised and
variables written, and for the content of a step also marks set or taken away at states. They
are named here once; what they leave alone is read off the list.
-/

namespace Statechart

/-- The event whose raising the entry notes. -/
def Entry.raised? : Entry → Option Event
  | .raised e => some e
  | _ => none

/-- The events raised in a journal, oldest first. -/
def raisedIn (journal : List Entry) : List Event :=
  journal.reverse.filterMap Entry.raised?

@[simp] theorem raisedIn_nil : raisedIn [] = [] := rfl

theorem raisedIn_append (newer older : List Entry) :
    raisedIn (newer ++ older) = raisedIn older ++ raisedIn newer := by
  simp [raisedIn]

/-- The entry notes that the completion of the state with the id `id` is told. -/
def Entry.tellsDone (id : String) : Entry → Bool
  | .raised e => decide (e.kind = .change ∧ e.name = Event.doneName id)
  | _ => false

theorem Entry.tellsDone_of_raised? {e : Entry} (h : e.raised? = none) (id : String) :
    e.tellsDone id = false := by
  cases e with
  | raised e => cases h
  | _ => rfl

/-- The entry notes that a service is asked to start or to end. -/
def Entry.isService : Entry → Bool
  | .startInvoke .. | .cancelInvoke .. => true
  | _ => false

/-- An entry that does not report an illegal configuration. -/
def Entry.Quiet (e : Entry) : Prop :=
  ∀ report, e = .report report → report.kind ≠ .illegalConfig

/-- No illegal configuration has been reported. -/
def Run.Quiet {σ : Type} (r : Run σ) : Prop :=
  ∀ e ∈ r.journal, e.Quiet

/-- The scope `n` may be written to: it belongs to the chart or to a state, or it has declared
the variable and this is not one of the system. -/
def Session.MayWrite (session : Session) (n : Nat) (name : String) : Prop :=
  n = Session.globalScope ∨ (∃ s, session.homes.get? s = some n) ∨
    isSystemVariable name = false ∧ session.scopes.hasLocal n name = true

/-- A name that content may assign to or declare. -/
def Unreserved (name : String) : Prop :=
  isSystemVariable name = false

variable {σ : Type}

/-- The run `s` comes out of the run `r` by what content can do: of variables it writes only those
whose names are `writable`, it asks for no service, and it raises no event that tells of a
change. -/
inductive Performs (writable : String → Prop) : Run σ → Run σ → Prop where
  | refl (r : Run σ) : Performs writable r r
  | trans {r s t : Run σ} (hrs : Performs writable r s) (hst : Performs writable s t) :
    Performs writable r t
  | note (r : Run σ) {e : Entry} (he : e.Quiet) (hraised : e.raised? = none)
      (hservice : e.isService = false) : Performs writable r (r.note e)
  | hear {ε : Type} (r : Run σ) (answer : Reply ε × σ) : Performs writable r (r.hear answer)
  | raise (r : Run σ) {e : Event} (he : e.kind ≠ .change) : Performs writable r (r.raise e)
  | advance (r : Run σ) : Performs writable r (r.mapSession Session.advance)
  | write (r : Run σ) {n : Nat} {name : String} (hn : r.session.MayWrite n name)
      (hname : writable name) (value : Json.Value) :
    Performs writable r (r.mapSession fun session =>
      { session with scopes := session.scopes.setLocal n name value })

/-- The run `s` comes out of the run `r` by what content and services can do. They raise no
event that tells of a change. -/
inductive Acts : Run σ → Run σ → Prop where
  | refl (r : Run σ) : Acts r r
  | trans {r s t : Run σ} (hrs : Acts r s) (hst : Acts s t) : Acts r t
  | note (r : Run σ) {e : Entry} (he : e.Quiet) (hraised : e.raised? = none) : Acts r (r.note e)
  | hear {ε : Type} (r : Run σ) (answer : Reply ε × σ) : Acts r (r.hear answer)
  | raise (r : Run σ) {e : Event} (he : e.kind ≠ .change) : Acts r (r.raise e)
  | advance (r : Run σ) : Acts r (r.mapSession Session.advance)
  | write (r : Run σ) {n : Nat} {name : String} (hn : r.session.MayWrite n name)
      (value : Json.Value) :
    Acts r (r.mapSession fun session =>
      { session with scopes := session.scopes.setLocal n name value })
  | forgetAll (r : Run σ) :
    Acts r (r.mapSession fun session => { session with pendingInvokes := ∅ })
  | keepInvoke (r : Run σ) {s : Nat} (hs : s ∈ r.session.configuration.active)
      (invokeId : String) : Acts r (r.keepInvoke s invokeId)
  | dropInvokes (r : Run σ) (s : Nat) :
    Acts r (r.mapSession fun session =>
      { session with invokes := session.invokes.erase s })

/-- The run `s` comes out of the run `r` by setting marks at states that are `known`, or taking
marks away. -/
inductive Marks (known : Nat → Prop) : Run σ → Run σ → Prop where
  | refl (r : Run σ) : Marks known r r
  | trans {r s t : Run σ} (hrs : Marks known r s) (hst : Marks known s t) : Marks known r t
  | raiseDone (r : Run σ) (id : String) :
    Marks known r (r.raise (.plain (Event.doneName id) .change))
  | complete (r : Run σ) {s : Nat} (hs : known s) :
    Marks known r (r.mapSession (·.complete s))
  | withdraw (r : Run σ) (s : Nat) : Marks known r (r.mapSession (·.withdraw s))
  | await (r : Run σ) {s : Nat} (hs : known s) :
    Marks known r (r.mapSession fun session =>
      { session with pendingInvokes := session.pendingInvokes.insert s })
  | forget (r : Run σ) (s : Nat) :
    Marks known r (r.mapSession fun session =>
      { session with pendingInvokes := session.pendingInvokes.erase s })

/-- The run `s` comes out of the run `r` by small changes, of which those that mark a state mark
one that is `known`. -/
inductive Evolves (known : Nat → Prop) : Run σ → Run σ → Prop where
  | acts {r s : Run σ} (h : Acts r s) : Evolves known r s
  | trans {r s t : Run σ} (hrs : Evolves known r s) (hst : Evolves known s t) :
    Evolves known r t
  | raiseDone (r : Run σ) (id : String) :
    Evolves known r (r.raise (.plain (Event.doneName id) .change))
  | complete (r : Run σ) {s : Nat} (hs : known s) :
    Evolves known r (r.mapSession (·.complete s))
  | withdraw (r : Run σ) (s : Nat) : Evolves known r (r.mapSession (·.withdraw s))
  | await (r : Run σ) {s : Nat} (hs : known s) :
    Evolves known r (r.mapSession fun session =>
      { session with pendingInvokes := session.pendingInvokes.insert s })
  | forget (r : Run σ) (s : Nat) :
    Evolves known r (r.mapSession fun session =>
      { session with pendingInvokes := session.pendingInvokes.erase s })

theorem quiet_of_report {kind : ReportKind} (h : kind ≠ .illegalConfig) (message : String)
    (related : Option String) : (Entry.report ⟨kind, message, related⟩).Quiet := by
  rintro report ⟨⟩
  exact h

/-- An entry that is quiet stays so behind another. -/
theorem Run.quiet_note {r : Run σ} {e : Entry} (he : e.Quiet) (hr : r.Quiet) :
    (r.note e).Quiet := by
  intro f hf
  rcases List.mem_cons.1 hf with rfl | hf
  · exact he
  · exact hr f hf

theorem Entry.quiet_raised (e : Event) : (Entry.raised e).Quiet := by
  rintro report ⟨⟩

/-- From the run `r` to the run `s` events are raised as the journal tells, and none is taken. -/
def Posts (r s : Run σ) : Prop :=
  ∃ entries, s.journal = entries ++ r.journal ∧
    s.session.internal = r.session.internal ++ raisedIn entries

namespace Posts

/-- Nothing happens to the journal or the internal queue. -/
theorem of_eq {r s : Run σ} (hjournal : s.journal = r.journal)
    (hinternal : s.session.internal = r.session.internal) : Posts r s :=
  ⟨[], hjournal, by simp [hinternal]⟩

theorem refl (r : Run σ) : Posts r r :=
  of_eq rfl rfl

theorem trans {r s t : Run σ} (hrs : Posts r s) (hst : Posts s t) : Posts r t := by
  obtain ⟨older, hs, hs'⟩ := hrs
  obtain ⟨newer, ht, ht'⟩ := hst
  refine ⟨newer ++ older, by rw [ht, hs, List.append_assoc], ?_⟩
  rw [ht', hs', raisedIn_append, List.append_assoc]

theorem note (r : Run σ) {e : Entry} (h : e.raised? = none) : Posts r (r.note e) :=
  ⟨[e], rfl, by simp [raisedIn, h, Run.note]⟩

theorem raise (r : Run σ) (e : Event) : Posts r (r.raise e) :=
  ⟨[.raised e], rfl, rfl⟩

end Posts

/-- From the run `r` to the run `s` no completion is noted, withdrawn or told. -/
def SameMarks (r s : Run σ) : Prop :=
  s.session.completed = r.session.completed ∧
    ∀ id, s.journal.countP (Entry.tellsDone id) = r.journal.countP (Entry.tellsDone id)

namespace SameMarks

theorem of_eq {r s : Run σ} (hcompleted : s.session.completed = r.session.completed)
    (hjournal : s.journal = r.journal) : SameMarks r s :=
  ⟨hcompleted, fun _ => by rw [hjournal]⟩

theorem refl (r : Run σ) : SameMarks r r :=
  of_eq rfl rfl

theorem trans {r s t : Run σ} (hrs : SameMarks r s) (hst : SameMarks s t) : SameMarks r t :=
  ⟨hst.1.trans hrs.1, fun id => (hst.2 id).trans (hrs.2 id)⟩

theorem note (r : Run σ) {e : Entry} (h : e.raised? = none) : SameMarks r (r.note e) := by
  refine ⟨rfl, fun id => ?_⟩
  simp [Run.note, Entry.tellsDone_of_raised? h]

/-- Content that leaves the marks alone may as well run after one is taken away. -/
theorem withdraw {r s : Run σ} (h : SameMarks r s) (x : Nat) :
    SameMarks (r.mapSession (·.withdraw x)) (s.mapSession (·.withdraw x)) :=
  ⟨congrArg (fun completed : StateSet => completed.erase x) h.1, h.2⟩

end SameMarks

/-- From the run `r` to the run `s` something is noted, and nothing else happens. -/
def Notes (r s : Run σ) : Prop :=
  ∃ entries, (∀ e ∈ entries, e.raised? = none) ∧ s = { r with journal := entries ++ r.journal }

namespace Notes

theorem session {r s : Run σ} (h : Notes r s) : s.session = r.session := by
  obtain ⟨entries, -, rfl⟩ := h
  rfl

theorem posts {r s : Run σ} (h : Notes r s) : Posts r s := by
  obtain ⟨entries, hnone, rfl⟩ := h
  refine ⟨entries, rfl, ?_⟩
  have hraised : raisedIn entries = [] :=
    List.filterMap_eq_nil_iff.2 (fun e he => hnone e (List.mem_reverse.1 he))
  rw [hraised, List.append_nil]

theorem sameMarks {r s : Run σ} (h : Notes r s) : SameMarks r s := by
  obtain ⟨entries, hnone, rfl⟩ := h
  refine ⟨rfl, fun id => ?_⟩
  have hcount : entries.countP (Entry.tellsDone id) = 0 :=
    List.countP_eq_zero.2 (fun e he => by simp [Entry.tellsDone_of_raised? (hnone e he)])
  rw [List.countP_append, hcount, Nat.zero_add]

end Notes

/-- From the run `r` to the run `s` something is reported, and nothing else happens. -/
def Reports (r s : Run σ) : Prop :=
  ∃ reports : List Report, s = { r with journal := reports.map .report ++ r.journal }

namespace Reports

theorem refl (r : Run σ) : Reports r r :=
  ⟨[], rfl⟩

theorem trans {r s t : Run σ} (hrs : Reports r s) (hst : Reports s t) : Reports r t := by
  obtain ⟨older, rfl⟩ := hrs
  obtain ⟨newer, rfl⟩ := hst
  exact ⟨newer ++ older, by rw [List.map_append, List.append_assoc]⟩

/-- Reports about the members of a list, one after the other. -/
theorem foldl {α : Type} {report : α → Report} (xs : List α) (r : Run σ) :
    Reports r (xs.foldl (fun r a => r.note (.report (report a))) r) := by
  induction xs generalizing r with
  | nil => exact .refl r
  | cons x rest ih =>
    have hfirst : Reports r (r.note (.report (report x))) := ⟨[report x], rfl⟩
    exact hfirst.trans (ih _)

theorem notes {r s : Run σ} (h : Reports r s) : Notes r s := by
  obtain ⟨reports, rfl⟩ := h
  refine ⟨reports.map .report, ?_, rfl⟩
  intro e he
  obtain ⟨report, -, rfl⟩ := List.mem_map.1 he
  rfl

end Reports

namespace Performs

variable {writable : String → Prop}

theorem report (r : Run σ) {kind : ReportKind} (h : kind ≠ .illegalConfig) (message : String)
    (related : Option String) : Performs writable r (r.report kind message related) :=
  .note r (quiet_of_report h message related) rfl rfl

/-- Steps of a fold, one after the other. -/
theorem foldl {α : Type} {f : Run σ → α → Run σ} {xs : List α}
    (h : ∀ r, ∀ x ∈ xs, Performs writable r (f r x)) (r : Run σ) :
    Performs writable r (xs.foldl f r) := by
  induction xs generalizing r with
  | nil => exact .refl r
  | cons x rest ih =>
    have hx := h r x (by simp)
    exact hx.trans (ih (fun r y hy => h r y (List.mem_cons_of_mem x hy)) (f r x))

theorem mono {writable' : String → Prop} (hsub : ∀ name, writable name → writable' name)
    {r s : Run σ} (h : Performs writable r s) : Performs writable' r s := by
  induction h with
  | refl r => exact .refl r
  | trans _ _ hrs hst => exact hrs.trans hst
  | note r he hraised hservice => exact .note r he hraised hservice
  | hear r answer => exact .hear r answer
  | raise r he => exact .raise r he
  | advance r => exact .advance r
  | write r hn hname value => exact .write r hn (hsub _ hname) value

theorem acts {r s : Run σ} (h : Performs writable r s) : Acts r s := by
  induction h with
  | refl r => exact .refl r
  | trans _ _ hrs hst => exact hrs.trans hst
  | note r he hraised _ => exact .note r he hraised
  | hear r answer => exact .hear r answer
  | raise r he => exact .raise r he
  | advance r => exact .advance r
  | write r hn _ value => exact .write r hn value

/-- Content starts no service and ends none. -/
theorem invokes {r s : Run σ} (h : Performs writable r s) :
    s.session.invokes = r.session.invokes := by
  induction h with
  | trans _ _ hrs hst => exact hst.trans hrs
  | _ => rfl

end Performs

namespace Acts

theorem report (r : Run σ) {kind : ReportKind} (h : kind ≠ .illegalConfig) (message : String)
    (related : Option String) : Acts r (r.report kind message related) :=
  .note r (quiet_of_report h message related) rfl

/-- Steps of a fold, one after the other. -/
theorem foldl {α : Type} {f : Run σ → α → Run σ} {xs : List α}
    (h : ∀ r, ∀ x ∈ xs, Acts r (f r x)) (r : Run σ) : Acts r (xs.foldl f r) := by
  induction xs generalizing r with
  | nil => exact .refl r
  | cons x rest ih =>
    have hx := h r x (by simp)
    exact hx.trans (ih (fun r y hy => h r y (List.mem_cons_of_mem x hy)) (f r x))

/-- The parts of a session that content and services leave alone. -/
theorem keeps {r s : Run σ} (h : Acts r s) :
    s.session.configuration = r.session.configuration ∧ s.session.status = r.session.status ∧
      s.session.histories = r.session.histories ∧ s.session.homes = r.session.homes ∧
      s.session.id = r.session.id ∧ s.session.running = r.session.running ∧
      s.session.completed = r.session.completed := by
  induction h with
  | trans _ _ hrs hst =>
    obtain ⟨h₁, h₂, h₃, h₄, h₅, h₆, h₇⟩ := hrs
    obtain ⟨h₁', h₂', h₃', h₄', h₅', h₆', h₇'⟩ := hst
    exact ⟨h₁'.trans h₁, h₂'.trans h₂, h₃'.trans h₃, h₄'.trans h₄, h₅'.trans h₅, h₆'.trans h₆,
      h₇'.trans h₇⟩
  | _ => exact ⟨rfl, rfl, rfl, rfl, rfl, rfl, rfl⟩

theorem configuration {r s : Run σ} (h : Acts r s) :
    s.session.configuration = r.session.configuration := h.keeps.1

theorem status {r s : Run σ} (h : Acts r s) : s.session.status = r.session.status :=
  h.keeps.2.1

theorem histories {r s : Run σ} (h : Acts r s) :
    s.session.histories = r.session.histories := h.keeps.2.2.1

theorem homes {r s : Run σ} (h : Acts r s) : s.session.homes = r.session.homes :=
  h.keeps.2.2.2.1

theorem running {r s : Run σ} (h : Acts r s) : s.session.running = r.session.running :=
  h.keeps.2.2.2.2.2.1

theorem completed {r s : Run σ} (h : Acts r s) : s.session.completed = r.session.completed :=
  h.keeps.2.2.2.2.2.2

/-- The journal grows by entries that report no illegal configuration. -/
theorem quiet {r s : Run σ} (h : Acts r s) (hr : r.Quiet) : s.Quiet := by
  induction h with
  | trans _ _ hrs hst => exact hst (hrs hr)
  | note r he _ => exact Run.quiet_note he hr
  | raise r _ => exact Run.quiet_note (Entry.quiet_raised _) hr
  | _ => exact hr

theorem posts {r s : Run σ} (h : Acts r s) : Posts r s := by
  induction h with
  | trans _ _ hrs hst => exact hrs.trans hst
  | note r _ hraised => exact .note r hraised
  | raise r _ => exact .raise r _
  | _ => exact .of_eq rfl rfl

theorem sameMarks {r s : Run σ} (h : Acts r s) : SameMarks r s := by
  induction h with
  | trans _ _ hrs hst => exact hrs.trans hst
  | note r _ hraised => exact .note r hraised
  | raise r he =>
    refine ⟨rfl, fun id => ?_⟩
    simp [Run.raise, Run.note, Run.mapSession, Entry.tellsDone, he]
  | _ => exact .of_eq rfl rfl

end Acts

namespace Marks

variable {known : Nat → Prop}

theorem evolves {r s : Run σ} (h : Marks known r s) : Evolves known r s := by
  induction h with
  | refl r => exact .acts (.refl r)
  | trans _ _ hrs hst => exact hrs.trans hst
  | raiseDone r id => exact .raiseDone r id
  | complete r hs => exact .complete r hs
  | withdraw r s => exact .withdraw r s
  | await r hs => exact .await r hs
  | forget r s => exact .forget r s

/-- Marks are no services. -/
theorem invokes {r s : Run σ} (h : Marks known r s) :
    s.session.invokes = r.session.invokes := by
  induction h with
  | trans _ _ hrs hst => exact hst.trans hrs
  | _ => rfl

end Marks

namespace Evolves

variable {known : Nat → Prop}

theorem refl (r : Run σ) : Evolves known r r :=
  .acts (.refl r)

/-- Steps of a fold, one after the other. -/
theorem foldl {α : Type} {f : Run σ → α → Run σ} {xs : List α}
    (h : ∀ r, ∀ x ∈ xs, Evolves known r (f r x)) (r : Run σ) :
    Evolves known r (xs.foldl f r) := by
  induction xs generalizing r with
  | nil => exact .refl r
  | cons x rest ih =>
    have hx := h r x (by simp)
    exact hx.trans (ih (fun r y hy => h r y (List.mem_cons_of_mem x hy)) (f r x))

/-- The parts of a session that the small changes leave alone. -/
theorem keeps {r s : Run σ} (h : Evolves known r s) :
    s.session.configuration = r.session.configuration ∧ s.session.status = r.session.status ∧
      s.session.histories = r.session.histories ∧ s.session.homes = r.session.homes ∧
      s.session.id = r.session.id ∧ s.session.running = r.session.running := by
  induction h with
  | acts h => exact ⟨h.configuration, h.status, h.histories, h.homes, h.keeps.2.2.2.2.1, h.running⟩
  | trans _ _ hrs hst =>
    obtain ⟨h₁, h₂, h₃, h₄, h₅, h₆⟩ := hrs
    obtain ⟨h₁', h₂', h₃', h₄', h₅', h₆'⟩ := hst
    exact ⟨h₁'.trans h₁, h₂'.trans h₂, h₃'.trans h₃, h₄'.trans h₄, h₅'.trans h₅, h₆'.trans h₆⟩
  | _ => exact ⟨rfl, rfl, rfl, rfl, rfl, rfl⟩

theorem configuration {r s : Run σ} (h : Evolves known r s) :
    s.session.configuration = r.session.configuration := h.keeps.1

theorem status {r s : Run σ} (h : Evolves known r s) : s.session.status = r.session.status :=
  h.keeps.2.1

theorem histories {r s : Run σ} (h : Evolves known r s) :
    s.session.histories = r.session.histories := h.keeps.2.2.1

theorem homes {r s : Run σ} (h : Evolves known r s) : s.session.homes = r.session.homes :=
  h.keeps.2.2.2.1

theorem running {r s : Run σ} (h : Evolves known r s) : s.session.running = r.session.running :=
  h.keeps.2.2.2.2.2

/-- The journal grows by entries that report no illegal configuration. -/
theorem quiet {r s : Run σ} (h : Evolves known r s) (hr : r.Quiet) : s.Quiet := by
  induction h with
  | acts h => exact h.quiet hr
  | trans _ _ hrs hst => exact hst (hrs hr)
  | raiseDone r id => exact Run.quiet_note (Entry.quiet_raised _) hr
  | _ => exact hr

theorem posts {r s : Run σ} (h : Evolves known r s) : Posts r s := by
  induction h with
  | acts h => exact h.posts
  | trans _ _ hrs hst => exact hrs.trans hst
  | raiseDone r id => exact .raise r _
  | _ => exact .of_eq rfl rfl

end Evolves

theorem Scopes.holder?_isSome {scopes : Scopes} {scope : Nat} {name : String}
    (h : scopes.has scope name = true) : ∃ n, scopes.holder? scope name = some n ∧
      scopes.hasLocal n name = true := by
  rw [Scopes.has, Scopes.get?, List.findSome?_isSome_iff] at h
  obtain ⟨n, hn, hvalue⟩ := h
  have hsome : (scopes.holder? scope name).isSome = true := by
    rw [Scopes.holder?, List.find?_isSome]
    exact ⟨n, hn, hvalue⟩
  obtain ⟨k, hk⟩ := Option.isSome_iff_exists.1 hsome
  exact ⟨k, hk, by simpa using List.find?_some hk⟩

theorem Session.scopeOf_cases (session : Session) (c : Chart) (s : Nat) :
    session.scopeOf c s = Session.globalScope ∨
      ∃ x, session.homes.get? x = some (session.scopeOf c s) := by
  unfold scopeOf
  cases h : (c.branch s).findSome? session.homes.get? with
  | none => exact .inl rfl
  | some n =>
    obtain ⟨x, -, hx⟩ := List.exists_of_findSome?_eq_some h
    exact .inr ⟨x, hx⟩

/-- The chart or one of its states declares the variable as data. -/
def Chart.Declares (c : Chart) (name : String) : Prop :=
  (∃ d ∈ c.data, d.id = name) ∨ ∃ s, ∃ d ∈ (c.node s).data, d.id = name

theorem Session.mayWrite_scopeOf (session : Session) (c : Chart) (s : Nat) (name : String) :
    session.MayWrite (session.scopeOf c s) name := by
  rcases session.scopeOf_cases c s with h | h
  · exact .inl h
  · exact .inr (.inl h)

namespace Interpreter

variable (m : Interpreter σ)

theorem performs_assign (owner : Nat) (location expr : String) (r : Run σ) :
    Performs Unreserved r (m.assign owner location expr r).2 := by
  unfold assign
  dsimp only
  split
  · exact .refl r
  · next hsystem =>
    split
    · exact .refl r
    · next hhas =>
      split
      · exact .refl r
      · next value _ =>
        obtain ⟨n, hholder, hlocal⟩ := Scopes.holder?_isSome (by simpa [View.has] using hhas)
        have hname : Unreserved location := by simpa [Unreserved] using hsystem
        have hwrite : r.session.MayWrite n location := .inr (.inr ⟨hname, hlocal⟩)
        have hset : m.writeFrom owner r (fun scopes s => scopes.set s location value) =
            r.mapSession fun session =>
              { session with scopes := session.scopes.setLocal n location value } := by
          simp only [writeFrom, Run.mapSession, Scopes.set]
          rw [show r.session.scopes.holder? (r.session.scopeOf m.chart owner) location = some n
            from hholder]
          rfl
        rw [hset]
        exact .write r hwrite hname value

theorem performs_declare (owner : Nat) (name : String) (expr : Option String) (r : Run σ) :
    Performs Unreserved r (m.declare owner name expr r).2 := by
  unfold declare
  dsimp only
  split
  · exact .refl r
  · next hsystem =>
    have hwrite : ∀ value, Performs Unreserved r
        (m.writeFrom owner r (fun scopes s => scopes.setLocal s name value)) :=
      fun value => .write r (r.session.mayWrite_scopeOf m.chart owner name)
        (by simpa [Unreserved] using hsystem) value
    split
    · exact hwrite .null
    · split
      · exact .refl r
      · exact hwrite _

section Content

variable {writable : String → Prop}

theorem performs_log (owner : Nat) (label expr : Option String) (r : Run σ) :
    Performs writable r (m.log owner label expr r).2 := by
  have hwrite : ∀ text, Performs writable r (r.note (.log label (m.chart.idOf owner) text)) := by
    intro text
    exact .note r nofun rfl rfl
  unfold log
  dsimp only
  split
  · exact hwrite ""
  · split
    · exact .refl r
    · exact hwrite _

theorem performs_dispatch (request : SendRequest) (r : Run σ) :
    Performs writable r (m.dispatch request r).2 := by
  exact (Performs.hear r (m.host.send request r.world)).trans (.note _ nofun rfl rfl)

theorem performs_send (owner : Nat) (s : Send) (r : Run σ) :
    Performs writable r (m.send owner s r).2 := by
  unfold send
  dsimp only
  split
  · exact .refl r
  · next event _ =>
    split
    · exact .refl r
    · next data _ =>
      have hsend : ∀ (id : String) (r' : Run σ), Performs writable r r' →
          Performs writable r (if s.target = some Send.internalTarget then
            (none, r'.raise { Event.signal event with sendId := some id, data := data })
          else m.dispatch
            { sendId := id, event := event, target := s.target, targetType := s.targetType,
              data := data, delay := s.delay.getD 0, origin := r'.session.id.render } r').2 := by
        intro id r' h
        split
        · exact h.trans (.raise r' nofun)
        · exact h.trans (m.performs_dispatch _ r')
      cases s.id with
      | some id => exact hsend id r (.refl r)
      | none => exact hsend _ _ (.advance r)

theorem performs_cancelSend (sendId : String) (r : Run σ) :
    Performs writable r (m.cancelSend sendId r) := by
  exact (Performs.hear r (m.host.cancelSend sendId r.world)).trans (.note _ nofun rfl rfl)

end Content

mutual

theorem performs_perform (owner : Nat) (action : Action) (r : Run σ) :
    Performs Unreserved r (m.perform owner action r).2 := by
  match action with
  | .assign location expr => exact m.performs_assign owner location expr r
  | .declare name expr => exact m.performs_declare owner name expr r
  | .log label expr => exact m.performs_log owner label expr r
  | .raise event => exact .raise r nofun
  | .send s => exact m.performs_send owner s r
  | .cancel sendId => exact m.performs_cancelSend sendId r
  | .choose branches otherwise =>
    have hfirst := performs_performFirst owner branches r
    simp only [perform]
    split
    · next outcome houtcome => exact hfirst outcome houtcome
    · exact performs_performAll owner otherwise r

theorem performs_performAll (owner : Nat) (actions : List Action) (r : Run σ) :
    Performs Unreserved r (m.performAll owner actions r).2 := by
  match actions with
  | [] => exact .refl r
  | action :: rest =>
    have hfirst := performs_perform owner action r
    simp only [performAll]
    split
    · next r' hr' =>
      rw [hr'] at hfirst
      exact hfirst.trans (performs_performAll owner rest r')
    · exact hfirst

theorem performs_performFirst (owner : Nat) (branches : List Branch) (r : Run σ)
    (outcome : Option ContentError × Run σ)
    (h : m.performFirst owner branches r = some outcome) : Performs Unreserved r outcome.2 := by
  match branches with
  | [] => cases h
  | .mk condition actions :: rest =>
    have hall := performs_performAll owner actions r
    simp only [performFirst] at h
    split at h
    · obtain rfl := Option.some.inj h
      exact .refl r
    · obtain rfl := Option.some.inj h
      exact hall
    · exact performs_performFirst owner rest r outcome h

end

theorem kind_ne_illegalConfig (e : ContentError) : e.kind ≠ .illegalConfig := by
  cases e <;> simp [ContentError.kind]

theorem performs_runActions (owner : Nat) (actions : List Action) (r : Run σ) :
    Performs Unreserved r (m.runActions owner actions r) := by
  have hall := m.performs_performAll owner actions r
  unfold runActions
  split
  · next hr' =>
    rw [hr'] at hall
    exact hall
  · next e r' hr' =>
    rw [hr'] at hall
    have hreport : Performs Unreserved r'
        (r'.report e.kind e.message (some (m.chart.idOf owner))) :=
      .report r' (kind_ne_illegalConfig e) _ _
    exact (hall.trans hreport).trans (.raise _ nofun)

theorem performs_runBlock (block : Block) (owner : Nat) (actions : List Action) (r : Run σ) :
    Performs Unreserved r (m.runBlock block owner actions r) := by
  have hnote : Performs Unreserved r (r.note (.began block)) := .note r nofun rfl rfl
  exact hnote.trans (m.performs_runActions owner actions _)

theorem performs_fire (t : Nat) (r : Run σ) : Performs Unreserved r (m.fire t r) :=
  m.performs_runBlock _ _ _ r

theorem performs_runDefaults (step : Step) (s : Nat) (r : Run σ) :
    Performs Unreserved r (m.runDefaults step s r) := by
  unfold runDefaults
  refine Performs.trans ?_ (.foldl ?_ _)
  · split
    · split
      · exact m.performs_runBlock _ _ _ r
      · exact .refl r
    · exact .refl r
  · intro r h _
    split
    · exact m.performs_runBlock _ _ _ r
    · exact .refl r

theorem performs_declareAll (owner : Option Nat) (data : List Data) (r : Run σ) :
    Performs (fun name => ∃ d ∈ data, d.id = name) r (m.declareAll owner data r) := by
  refine .foldl ?_ r
  intro r d hd
  refine Performs.trans ?_ (.write _ ?_ ⟨d, hd, rfl⟩ _)
  · cases d.expr with
    | none => exact .refl r
    | some expr =>
      dsimp only
      split
      · exact .refl r
      · exact (Performs.report r (by simp) _ _).trans (.raise _ nofun)
  · cases owner with
    | none => exact .inl rfl
    | some s =>
      have hscope : r.session.MayWrite (r.session.scopeOf m.chart s) d.id :=
        (r.session.scopeOf_cases m.chart s).imp_right .inl
      -- An expression that fails changes no scope.
      cases d.expr with
      | none => exact hscope
      | some expr =>
        dsimp only
        split
        · exact hscope
        · exact hscope

theorem performs_initializeData (r : Run σ) :
    Performs m.chart.Declares r (m.initializeData r) := by
  refine Performs.trans ((m.performs_declareAll none m.chart.data r).mono fun _ => .inl)
    (.foldl ?_ _)
  intro r s _
  exact (m.performs_declareAll (some s) (m.chart.node s).data r).mono fun _ h => .inr ⟨s, h⟩

theorem acts_initializeData (r : Run σ) : Acts r (m.initializeData r) :=
  (m.performs_initializeData r).acts

section Selection

variable {writable : String → Prop}

theorem performs_guardHolds (t : Nat) (r : Run σ) :
    Performs writable r (m.guardHolds t r).2 := by
  have hnote : Performs writable r (r.note (.guarded t)) := .note r nofun rfl rfl
  unfold guardHolds
  dsimp only
  split
  · exact .refl r
  · split
    · exact hnote
    · exact hnote.trans (.report _ (by simp) _ _)

theorem performs_firstEnabled (transitions : List Nat) (verdicts : Verdicts) (r : Run σ) :
    Performs writable r (m.firstEnabled transitions verdicts r).2.2 := by
  induction transitions generalizing verdicts r with
  | nil => exact .refl r
  | cons t rest ih =>
    unfold firstEnabled
    split
    · exact .refl r
    · exact ih verdicts r
    · have hguard : Performs writable r (m.guardHolds t r).2 := m.performs_guardHolds t r
      dsimp only
      split
      · exact hguard
      · exact hguard.trans (ih _ _)

theorem performs_enabled (candidates : List Candidate) (verdicts : Verdicts) (r : Run σ) :
    Performs writable r (m.enabled candidates verdicts r).2 := by
  induction candidates generalizing verdicts r with
  | nil => exact .refl r
  | cons candidate rest ih =>
    have hfirst : Performs writable r (m.firstEnabled candidate.transitions verdicts r).2.2 :=
      m.performs_firstEnabled candidate.transitions verdicts r
    unfold enabled
    dsimp only
    split
    · exact hfirst.trans (ih _ _)
    · exact hfirst.trans (ih _ _)

theorem performs_dropConflicts (active : StateSet) (kept : List (Nat × StateSet))
    (transitions : List Nat) (r : Run σ) :
    Performs writable r (m.dropConflicts active kept transitions r).2 := by
  induction transitions generalizing kept r with
  | nil => exact .refl r
  | cons t rest ih =>
    unfold dropConflicts
    dsimp only
    split
    · exact Performs.trans (.report r (by simp) _ _) (ih kept _)
    · exact ih _ r

theorem performs_select (candidates : List Candidate) (active : StateSet) (r : Run σ) :
    Performs writable r (m.select candidates active r).2 :=
  (m.performs_enabled candidates ∅ r).trans (m.performs_dropConflicts active [] _ _)

end Selection

theorem performs_invokeRefused {writable : String → Prop} (s : Nat) (invokeId : String)
    (e : InvokeError) (r : Run σ) : Performs writable r (m.invokeRefused s invokeId e r) :=
  (Performs.report r (by simp) e.message _).trans (.raise _ nofun)

theorem performs_invokeParams {writable : String → Prop} (s : Nat) (params : List Param)
    (r : Run σ) : Performs writable r (m.invokeParams s params r).2 := by
  refine List.foldlRecOn
    (motive := fun out : SortedMap String Json.Value × Run σ => Performs writable r out.2)
    params _ (.refl r) ?_
  rintro ⟨known, r'⟩ hout p _
  dsimp only
  split
  · exact hout
  · exact Performs.trans hout (.report r' (by simp) _ _)

/-- What starting a service comes to: the host is asked, and it agrees or refuses. -/
theorem startInvoke_spec (s : Nat) (i : Invoke) (r : Run σ) :
    ∃ (t : Run σ) (request : InvokeRequest) (reply : Reply InvokeError), Performs Unreserved r t ∧
      (reply.refusal = none ∧ m.startInvoke s i r =
          (t.note (.startInvoke request reply)).keepInvoke s request.invokeId ∨
        reply.refusal ≠ none ∧
          Performs Unreserved (t.note (.startInvoke request reply)) (m.startInvoke s i r)) := by
  unfold startInvoke
  cases i.id with
  | some id =>
    have hparams : Performs Unreserved r (m.invokeParams s i.params r).2 :=
      m.performs_invokeParams s i.params r
    dsimp only
    split
    · next hnone => exact ⟨_, _, _, hparams.trans (.hear _ _), .inl ⟨hnone, rfl⟩⟩
    · next e hsome =>
      refine ⟨_, _, _, hparams.trans (.hear _ _), .inr ⟨?_, m.performs_invokeRefused s id e _⟩⟩
      rw [hsome]
      exact nofun
  | none =>
    have hparams : Performs Unreserved r
        (m.invokeParams s i.params (r.mapSession Session.advance)).2 :=
      Performs.trans (.advance r) (m.performs_invokeParams s i.params _)
    dsimp only
    split
    · next hnone => exact ⟨_, _, _, hparams.trans (.hear _ _), .inl ⟨hnone, rfl⟩⟩
    · next e hsome =>
      refine ⟨_, _, _, hparams.trans (.hear _ _), .inr ⟨?_, m.performs_invokeRefused s _ e _⟩⟩
      rw [hsome]
      exact nofun

/-- What cancelling a service comes to: the host is asked. -/
theorem cancelInvoke_spec (s : Nat) (invokeId : String) (r : Run σ) :
    ∃ (t : Run σ) (reply : Reply InvokeError), Performs Unreserved r t ∧
      Performs Unreserved (t.note (.cancelInvoke invokeId reply))
        (m.cancelInvoke s invokeId r) := by
  refine ⟨r.hear (m.host.cancelInvoke invokeId r.world),
    (m.host.cancelInvoke invokeId r.world).1, .hear r _, ?_⟩
  unfold cancelInvoke
  dsimp only
  split
  · exact .refl _
  · exact m.performs_invokeRefused s invokeId _ _

theorem acts_startInvoke {s : Nat} {r : Run σ}
    (hs : s ∈ r.session.configuration.active) (i : Invoke) :
    Acts r (m.startInvoke s i r) := by
  obtain ⟨t, request, reply, hask, hanswered⟩ := m.startInvoke_spec s i r
  have hnote : Acts t (t.note (.startInvoke request reply)) := .note t nofun rfl
  rcases hanswered with ⟨-, heq⟩ | ⟨-, hrefused⟩
  · rw [heq]
    refine (hask.acts.trans hnote).trans (.keepInvoke _ ?_ _)
    rw [hnote.configuration, hask.acts.configuration]
    exact hs
  · exact (hask.acts.trans hnote).trans hrefused.acts

theorem acts_startInvokes (r : Run σ) : Acts r (m.startInvokes r) := by
  refine (Acts.forgetAll r).trans (.foldl ?_ _)
  intro r s _
  split
  · next hs =>
    -- Starting one service leaves the state active for the next.
    have hfold : ∀ (invokes : List Invoke) (r : Run σ), s ∈ r.session.configuration.active →
        Acts r (invokes.foldl (fun r i => m.startInvoke s i r) r) := by
      intro invokes
      induction invokes with
      | nil => exact fun r _ => .refl r
      | cons i rest ih =>
        intro r hs
        have hi := m.acts_startInvoke hs i
        refine hi.trans (ih _ ?_)
        rw [hi.configuration]
        exact hs
    exact hfold _ r hs
  · exact .refl r

theorem acts_cancelInvoke (s : Nat) (invokeId : String) (r : Run σ) :
    Acts r (m.cancelInvoke s invokeId r) := by
  obtain ⟨t, reply, hask, hanswered⟩ := m.cancelInvoke_spec s invokeId r
  have hnote : Acts t (t.note (.cancelInvoke invokeId reply)) := .note t nofun rfl
  exact (hask.acts.trans hnote).trans hanswered.acts

theorem acts_cancelInvokes (s : Nat) (r : Run σ) :
    Acts r (m.cancelInvokes s r) := by
  unfold cancelInvokes
  split
  · exact .refl r
  · exact (Acts.dropInvokes r s).trans
      (.foldl (fun r invokeId _ => m.acts_cancelInvoke s invokeId r) _)

theorem acts_cancelAllInvokes (r : Run σ) :
    Acts r (m.cancelAllInvokes r) :=
  .foldl (fun r s _ => m.acts_cancelInvokes s r) r

section Marks

variable {known : Nat → Prop}

theorem marks_completeParallel {p : Nat} (hp : known p) (r : Run σ) :
    Marks known r (m.completeParallel p r) := by
  unfold completeParallel
  split
  · exact (Marks.complete r hp).trans (.raiseDone _ _)
  · exact .refl r

theorem marks_completeAround (hparent : ∀ {s p}, m.chart.parent s = some p → known p) {s : Nat}
    (hs : known s) (r : Run σ) : Marks known r (m.completeAround s r) := by
  unfold completeAround
  split
  · exact .refl r
  · next p hp =>
    split
    · exact (Marks.complete r hs).trans (m.marks_completeParallel (hparent hp) _)
    · have hdone : Marks known r (m.raiseDone p (r.mapSession (·.complete p))) :=
        (Marks.complete r (hparent hp)).trans (.raiseDone _ _)
      dsimp only
      split
      · next g hg =>
        split
        · exact hdone.trans (m.marks_completeParallel (hparent hg) _)
        · exact hdone
      · exact hdone

theorem marks_reopenAround (s : Nat) (r : Run σ) : Marks known r (m.reopenAround s r) := by
  unfold reopenAround
  split
  · exact .refl r
  · next p _ =>
    have hwithdraw : Marks known r (r.mapSession (·.withdraw p)) := .withdraw r p
    dsimp only
    split
    · split
      · exact hwithdraw.trans (.withdraw _ _)
      · exact hwithdraw
    · exact hwithdraw

/-- Leaving a state runs its content, then cancels its services, then takes marks away. -/
theorem parts_leave (s : Nat) (r : Run σ) : ∃ t, Performs Unreserved r t ∧
    Marks known (m.cancelInvokes s t) (m.leave s r) := by
  refine ⟨_, m.performs_runBlock (.exit s) s (m.chart.node s).onExit r, ?_⟩
  have hclear : Marks known (m.cancelInvokes s (m.runBlock (.exit s) s (m.chart.node s).onExit r))
      ((m.cancelInvokes s (m.runBlock (.exit s) s (m.chart.node s).onExit r)).mapSession
        fun session =>
          { session.withdraw s with pendingInvokes := session.pendingInvokes.erase s }) :=
    (Marks.withdraw _ s).trans (.forget _ s)
  unfold leave
  dsimp only
  split
  · exact hclear.trans (m.marks_reopenAround s _)
  · exact hclear

/-- Entering a state runs its content and sets marks. -/
theorem parts_enter (hparent : ∀ {s p}, m.chart.parent s = some p → known p) (step : Step)
    {s : Nat} (hs : known s) (r : Run σ) :
    ∃ t, Performs Unreserved (r.mapSession (·.withdraw s)) t ∧
      Marks known t (m.enter step s r) := by
  refine ⟨_, (m.performs_runBlock (.entry s) s (m.chart.node s).onEntry
    (r.mapSession (·.withdraw s))).trans (m.performs_runDefaults step s _), ?_⟩
  have hinvokes : ∀ r : Run σ, Marks known r (if (m.chart.node s).invokes.isEmpty then r
      else r.mapSession fun session =>
        { session with pendingInvokes := session.pendingInvokes.insert s }) := by
    intro r
    split
    · exact .refl r
    · exact .await r hs
  unfold enter
  dsimp only
  split
  · exact (hinvokes _).trans (m.marks_completeAround hparent hs _)
  · exact hinvokes _

theorem evolves_leave (s : Nat) (r : Run σ) : Evolves known r (m.leave s r) := by
  obtain ⟨t, hcontent, hmarks⟩ := m.parts_leave s r
  exact (Evolves.acts (hcontent.acts.trans (m.acts_cancelInvokes s t))).trans hmarks.evolves

theorem evolves_enter (hparent : ∀ {s p}, m.chart.parent s = some p → known p) (step : Step)
    {s : Nat} (hs : known s) (r : Run σ) : Evolves known r (m.enter step s r) := by
  obtain ⟨t, hcontent, hmarks⟩ := m.parts_enter hparent step hs r
  exact ((Evolves.withdraw r s).trans (.acts hcontent.acts)).trans hmarks.evolves

theorem evolves_runContent (hparent : ∀ {s p}, m.chart.parent s = some p → known p) {step : Step}
    (hentry : ∀ s ∈ step.entryList, known s) (r : Run σ) :
    Evolves known r (m.runContent step r) := by
  have hleave : Evolves known r (step.exitList.foldl (fun r s => m.leave s r) r) :=
    .foldl (fun r s _ => m.evolves_leave s r) r
  have hfire := hleave.trans
    (.acts (.foldl (fun r t (_ : t ∈ step.transitions) => (m.performs_fire t r).acts) _))
  exact hfire.trans (.foldl (fun r s hs => m.evolves_enter hparent step (hentry s hs) r) _)

end Marks

end Interpreter

end Statechart
