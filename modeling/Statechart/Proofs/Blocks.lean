import Statechart.Proofs.Aborting
import Statechart.Proofs.Conditions
import Statechart.Proofs.Moves
import Statechart.Proofs.Regions
import Statechart.Proofs.Selecting

/-!
The blocks of content that a microstep runs. A step determines a list of blocks: those of the states
left, those of its transitions, and those of the states entered, each with the defaults that lead
into it. Making the step runs these blocks in this order, and outside them no content runs; the
journal tells the same list.
-/

namespace Statechart

variable {σ : Type}

/-- The block whose beginning the entry notes. -/
def Entry.began? : Entry → Option Block
  | .began block => some block
  | _ => none

/-- The blocks begun in a journal, oldest first. -/
def blocksIn (journal : List Entry) : List Block :=
  journal.reverse.filterMap Entry.began?

theorem blocksIn_append (newer older : List Entry) :
    blocksIn (newer ++ older) = blocksIn older ++ blocksIn newer := by
  simp [blocksIn]

/-- The block is that of a default. -/
def Block.isDefault : Block → Bool
  | .initial _ | .history _ => true
  | _ => false

/-- The event for which a microstep is made. -/
def Cause.event? : Cause → Option Event
  | start | eventless => none
  | internal e | external e => some e

namespace Chart

/-- The state for which a block runs. -/
def owner (c : Chart) : Block → Nat
  | .exit s | .entry s | .initial s => s
  | .transition t => (c.transition t).source
  | .history h => (c.parent h).getD 0

/-- The actions of a block. -/
def content (c : Chart) : Block → List Action
  | .exit s => (c.node s).onExit
  | .transition t => (c.transition t).actions
  | .entry s => (c.node s).onEntry
  | .initial s => ((c.defaultTransition? s).map (fun t => (c.transition t).actions)).getD []
  | .history h => ((c.node h).transitions.head?.map (fun t => (c.transition t).actions)).getD []

/-- The blocks of the defaults that lead into `s`. -/
def defaultBlocks (c : Chart) (step : Step) (s : Nat) : List Block :=
  (if (c.defaultTransition? s).isSome ∧ s ∈ step.defaultEntry then [.initial s] else []) ++
    ((c.node s).histories.filter (fun h => (step.historyDefaults.get? h).isSome)).map .history

/-- The blocks of a step, in order. -/
def blocks (c : Chart) (step : Step) : List Block :=
  step.exitList.map .exit ++ step.transitions.map .transition ++
    step.entryList.flatMap (fun s => .entry s :: c.defaultBlocks step s)

/-- The histories whose default a step takes remember nothing, and it is their transition that is
taken. -/
def TakesDefaults (c : Chart) (histories : Histories) (taken : SortedMap Nat Nat) : Prop :=
  ∀ h t, taken.get? h = some t → c.IsHistory h ∧ (c.node h).transitions.head? = some t ∧
    (histories.get? h).filter (fun states => !states.isEmpty) = none

variable {c : Chart} {histories : Histories}

theorem takesDefaults_empty : c.TakesDefaults histories ∅ := by
  intro h t hget
  simp at hget

/-- Expanding one node takes the default of a history at most. -/
theorem takesDefaults_expand_node (queue : List Nat) (s : Nat) {e : Expansion}
    (h : c.TakesDefaults histories e.historyDefaults) :
    c.TakesDefaults histories (Expansion.expand c histories queue s e).1.historyDefaults := by
  unfold Expansion.expand
  split
  · exact h
  · exact h
  · split
    · exact h
    · split <;> exact h
  · exact h
  · next depth hkind =>
    split
    · exact h
    · next hnone =>
      split
      · next t hhead =>
        intro x u hget
        rw [SortedMap.get?_insert] at hget
        split at hget
        · next hx =>
          subst hx
          obtain rfl := Option.some.inj hget
          exact ⟨⟨depth, hkind⟩, hhead, hnone⟩
        · exact h x u hget
      · exact h
  · split <;> exact h

/-- The defaults that an expansion takes are those of histories that remember nothing. -/
theorem takesDefaults_expand (c : Chart) (histories : Histories) (seeds : List Nat)
    (residual : StateSet) :
    c.TakesDefaults histories (c.expand histories seeds residual).historyDefaults := by
  have hdrain : ∀ (steps : Nat) (queue : List Nat) (e : Expansion),
      c.TakesDefaults histories e.historyDefaults →
        c.TakesDefaults histories
          (Expansion.drain c histories residual steps queue e).historyDefaults := by
    intro steps
    induction steps with
    | zero => exact fun _ _ h => h
    | succ steps ih =>
      intro queue e h
      rw [Expansion.drain]
      split
      · exact h
      · next s rest _ => exact ih _ _ (takesDefaults_expand_node rest s h)
  exact hdrain _ seeds .empty takesDefaults_empty

end Chart

/-- From the run `r` to the run `s` no content runs: no block begins, and no action does
anything. -/
def Pauses (r s : Run σ) : Prop :=
  ∃ entries, s.journal = entries ++ r.journal ∧
    ∀ e ∈ entries, e.began? = none ∧ e.isDeed = false

namespace Pauses

theorem of_eq {r s : Run σ} (h : s.journal = r.journal) : Pauses r s :=
  ⟨[], h, by simp⟩

theorem refl (r : Run σ) : Pauses r r :=
  of_eq rfl

theorem trans {r s t : Run σ} (hrs : Pauses r s) (hst : Pauses s t) : Pauses r t := by
  obtain ⟨older, hs, holder⟩ := hrs
  obtain ⟨newer, ht, hnewer⟩ := hst
  refine ⟨newer ++ older, by rw [ht, hs, List.append_assoc], ?_⟩
  intro e he
  exact (List.mem_append.1 he).elim (hnewer e) (holder e)

theorem mapSession (r : Run σ) (f : Session → Session) : Pauses r (r.mapSession f) :=
  of_eq rfl

theorem note (r : Run σ) {e : Entry} (hbegan : e.began? = none) (hdeed : e.isDeed = false) :
    Pauses r (r.note e) :=
  ⟨[e], rfl, by simp [hbegan, hdeed]⟩

theorem raise (r : Run σ) {e : Event} (he : e.kind ≠ .signal) : Pauses r (r.raise e) :=
  ⟨[.raised e], rfl, by simp [Entry.began?, Entry.isDeed, he]⟩

/-- Steps of a fold, one after the other. -/
theorem foldl {α : Type} {f : Run σ → α → Run σ} (h : ∀ r x, Pauses r (f r x)) (xs : List α)
    (r : Run σ) : Pauses r (xs.foldl f r) := by
  induction xs generalizing r with
  | nil => exact .refl r
  | cons x rest ih => exact (h r x).trans (ih (f r x))

theorem tell (r : Run σ) {entries : List Entry}
    (h : ∀ e ∈ entries, e.began? = none ∧ e.isDeed = false) : Pauses r (r.tell entries) :=
  ⟨entries.reverse, rfl, fun e he => h e (List.mem_reverse.1 he)⟩

end Pauses

theorem Marks.pauses {known : Nat → Prop} {r s : Run σ} (h : Marks known r s) : Pauses r s := by
  induction h with
  | refl r => exact .refl r
  | trans _ _ hrs hst => exact hrs.trans hst
  | raiseDone r id => exact .raise r nofun
  | _ => exact .of_eq rfl

theorem Reports.pauses {r s : Run σ} (h : Reports r s) : Pauses r s := by
  obtain ⟨reports, rfl⟩ := h
  refine ⟨reports.map .report, rfl, ?_⟩
  intro e he
  obtain ⟨report, -, rfl⟩ := List.mem_map.1 he
  exact ⟨rfl, rfl⟩

namespace Interpreter

variable (m : Interpreter σ)

/-- From the run `r` to the run `s` the given blocks of content run, in order, and no other. -/
inductive Plays : List Block → Run σ → Run σ → Prop where
  | pause {r s : Run σ} (h : Pauses r s) : Plays [] r s
  | block {b : Block} {rest : List Block} {r s t : Run σ} (h : Pauses r s)
      (hrest : Plays rest (m.runBlock b (m.chart.owner b) (m.chart.content b) s) t) :
    Plays (b :: rest) r t

variable {m}

namespace Plays

theorem single {b : Block} {r : Run σ} {owner : Nat} {actions : List Action}
    (howner : m.chart.owner b = owner) (hactions : m.chart.content b = actions) :
    m.Plays [b] r (m.runBlock b owner actions r) := by
  subst howner hactions
  exact .block (.refl r) (.pause (.refl _))

theorem after {bs : List Block} {r s t : Run σ} (hrs : Pauses r s) (hst : m.Plays bs s t) :
    m.Plays bs r t := by
  cases hst with
  | pause h => exact .pause (hrs.trans h)
  | block h hrest => exact .block (hrs.trans h) hrest

theorem append {bs bs' : List Block} {r s t : Run σ} (hrs : m.Plays bs r s)
    (hst : m.Plays bs' s t) : m.Plays (bs ++ bs') r t := by
  induction hrs with
  | pause h => exact hst.after h
  | block h _ ih => exact .block h (ih hst)

theorem before {bs : List Block} {r s t : Run σ} (hrs : m.Plays bs r s) (hst : Pauses s t) :
    m.Plays bs r t := by
  simpa using hrs.append (.pause hst)

/-- Steps of a fold, one after the other. -/
theorem foldl {α : Type} {f : Run σ → α → Run σ} {played : α → List Block} {xs : List α}
    (h : ∀ x ∈ xs, ∀ r, m.Plays (played x) r (f r x)) (r : Run σ) :
    m.Plays (xs.flatMap played) r (xs.foldl f r) := by
  induction xs generalizing r with
  | nil => exact .pause (.refl r)
  | cons x rest ih =>
    have hx := h x (by simp) r
    exact hx.append (ih (fun y hy => h y (List.mem_cons_of_mem x hy)) (f r x))

end Plays

theorem blocks_runActions (owner : Nat) (actions : List Action) (r : Run σ) :
    ∃ entries, (m.runActions owner actions r).journal = entries ++ r.journal ∧
      blocksIn entries = [] := by
  obtain ⟨deeds, hjournal, hdeeds, -⟩ := (m.executes_performAll owner actions r).smoothly
  have hnone : blocksIn deeds = [] := by
    refine List.filterMap_eq_nil_iff.2 fun e he => ?_
    have hdeed := hdeeds e (List.mem_reverse.1 he)
    cases e with
    | began => cases hdeed
    | _ => rfl
  unfold runActions
  cases hperform : m.performAll owner actions r with
  | mk outcome s =>
    rw [hperform] at hjournal
    cases outcome with
    | none => exact ⟨deeds, hjournal, hnone⟩
    | some e =>
      refine ⟨.raised (.error e.eventName) ::
        .report ⟨e.kind, e.message, some (m.chart.idOf owner)⟩ :: deeds, ?_, ?_⟩
      · simpa [Run.raise, Run.report, Run.note, Run.mapSession] using hjournal
      · simpa [blocksIn, Entry.began?] using hnone

/-- The journal tells the blocks that run. -/
theorem Plays.journal {bs : List Block} {r s : Run σ} (h : m.Plays bs r s) :
    ∃ entries, s.journal = entries ++ r.journal ∧ blocksIn entries = bs := by
  have hpause : ∀ {r s : Run σ}, Pauses r s →
      ∃ entries, s.journal = entries ++ r.journal ∧ blocksIn entries = [] := by
    rintro r s ⟨entries, hjournal, hnone⟩
    exact ⟨entries, hjournal,
      List.filterMap_eq_nil_iff.2 (fun e he => (hnone e (List.mem_reverse.1 he)).1)⟩
  induction h with
  | pause h => exact hpause h
  | @block b rest r s t h _ ih =>
    obtain ⟨before, hs, hbefore⟩ := hpause h
    obtain ⟨inside, hblock, hinside⟩ :=
      m.blocks_runActions (m.chart.owner b) (m.chart.content b) (s.note (.began b))
    obtain ⟨newer, ht, hnewer⟩ := ih
    refine ⟨newer ++ (inside ++ .began b :: before), ?_, ?_⟩
    · rw [ht, runBlock, hblock, Run.note, hs]
      simp
    · rw [blocksIn_append, blocksIn_append, hinside, hnewer]
      simp [blocksIn, Entry.began?] at hbefore ⊢
      exact hbefore

theorem pauses_cancelInvokes (s : Nat) (r : Run σ) : Pauses r (m.cancelInvokes s r) := by
  unfold cancelInvokes
  split
  · exact .refl r
  · refine Pauses.trans (.of_eq rfl) (.foldl (fun r invokeId => ?_) _ _)
    have hask : Pauses r ((r.hear (m.host.cancelInvoke invokeId r.world)).note
        (.cancelInvoke invokeId (m.host.cancelInvoke invokeId r.world).1)) :=
      (Pauses.of_eq rfl).trans (.note _ rfl rfl)
    unfold cancelInvoke
    dsimp only
    split
    · exact hask
    · exact hask.trans ((Pauses.note _ rfl rfl).trans (.raise _ nofun))

/-- Leaving a state runs its block. -/
theorem plays_leave (s : Nat) (r : Run σ) : m.Plays [.exit s] r (m.leave s r) := by
  have hblock : m.Plays [.exit s] r (m.runBlock (.exit s) s (m.chart.node s).onExit r) :=
    .single rfl rfl
  have hcancelled := hblock.before (m.pauses_cancelInvokes s _)
  unfold leave
  dsimp only
  split
  · exact (hcancelled.before (.mapSession _ _)).before
      (m.marks_reopenAround s _ : Marks (fun _ => True) _ _).pauses
  · exact hcancelled.before (.mapSession _ _)

theorem plays_fire (t : Nat) (r : Run σ) : m.Plays [.transition t] r (m.fire t r) :=
  .single rfl rfl

section Content

variable (hw : m.chart.WellFormed) {step : Step} {histories : Histories}
  (htaken : m.chart.TakesDefaults histories step.historyDefaults)

include hw htaken

/-- The defaults that lead into a state run in order, that of the state itself first. -/
theorem plays_runDefaults (s : Nat) (r : Run σ) :
    m.Plays (m.chart.defaultBlocks step s) r (m.runDefaults step s r) := by
  have hinitial : m.Plays
      (if (m.chart.defaultTransition? s).isSome ∧ s ∈ step.defaultEntry then [.initial s] else [])
      r (m.runInitial step s r) := by
    unfold runInitial
    cases hdefault : m.chart.defaultTransition? s with
    | none => exact .pause (.refl r)
    | some t =>
      by_cases hs : s ∈ step.defaultEntry
      · simp only [Option.isSome_some, hs, and_self, if_true]
        exact .single rfl (by simp [Chart.content, hdefault])
      · simp only [hs, and_false, if_false]
        exact .pause (.refl r)
  have hhistories : ∀ hs : List Nat, (∀ h ∈ hs, h ∈ (m.chart.node s).histories) → ∀ r : Run σ,
      m.Plays ((hs.filter (fun h => (step.historyDefaults.get? h).isSome)).map .history) r
        (hs.foldl (m.runHistory step s) r) := by
    intro hs
    induction hs with
    | nil => exact fun _ r => .pause (.refl r)
    | cons h rest ih =>
      intro hmem r
      have hrest := ih (fun x hx => hmem x (List.mem_cons_of_mem h hx))
      rw [List.foldl_cons, runHistory]
      cases hget : step.historyDefaults.get? h with
      | none =>
        rw [List.filter_cons_of_neg (by simp [hget])]
        exact hrest r
      | some t =>
        rw [List.filter_cons_of_pos (by simp [hget])]
        have hparent := (hw.mem_histories.1 (hmem h (by simp))).1
        have hhead := (htaken h t hget).2.1
        have hblock : m.Plays [.history h] r
            (m.runBlock (.history h) s (m.chart.transition t).actions r) :=
          .single (by simp [Chart.owner, hparent]) (by simp [Chart.content, hhead])
        exact hblock.append (hrest _)
  rw [runDefaults_eq]
  exact hinitial.append (hhistories _ (fun _ h => h) _)

/-- Entering a state runs its block and then those of the defaults that lead into it. -/
theorem plays_enter (s : Nat) (r : Run σ) :
    m.Plays (.entry s :: m.chart.defaultBlocks step s) r (m.enter step s r) := by
  have hwithdraw : Pauses r (r.mapSession (·.withdraw s)) := .mapSession r _
  have hblock : m.Plays [.entry s] (r.mapSession (·.withdraw s))
      (m.runBlock (.entry s) s (m.chart.node s).onEntry (r.mapSession (·.withdraw s))) :=
    .single rfl rfl
  have hdefaults := (hblock.append (plays_runDefaults hw htaken s _)).after hwithdraw
  have hawait : ∀ r : Run σ, Pauses r (if (m.chart.node s).invokes.isEmpty then r
      else r.mapSession fun session =>
        { session with pendingInvokes := session.pendingInvokes.insert s }) := by
    intro r
    split
    · exact .refl r
    · exact .of_eq rfl
  unfold enter
  dsimp only
  split
  · exact (hdefaults.before (hawait _)).before
      (m.marks_completeAround (fun _ => trivial) trivial _ : Marks (fun _ => True) _ _).pauses
  · exact hdefaults.before (hawait _)

/-- The content of a step consists of its blocks. -/
theorem plays_runContent (r : Run σ) :
    m.Plays (m.chart.blocks step) r (m.runContent step r) := by
  have hexits : m.Plays (step.exitList.flatMap fun s => [.exit s]) r
      (step.exitList.foldl (fun r s => m.leave s r) r) :=
    .foldl (fun s _ r => m.plays_leave s r) r
  have hfires : ∀ r : Run σ, m.Plays (step.transitions.flatMap fun t => [.transition t]) r
      (step.transitions.foldl (fun r t => m.fire t r) r) :=
    .foldl (fun t _ r => m.plays_fire t r)
  have hentries : ∀ r : Run σ,
      m.Plays (step.entryList.flatMap fun s => .entry s :: m.chart.defaultBlocks step s) r
        (step.entryList.foldl (fun r s => m.enter step s r) r) :=
    .foldl (fun s _ r => plays_enter hw htaken s r)
  unfold runContent Chart.blocks
  rw [List.map_eq_flatMap, List.map_eq_flatMap]
  exact (hexits.append (hfires _)).append (hentries _)

end Content

section Moves

variable (m)

/-- What a move makes of its step, whatever it is made for. -/
structure Enacts (move : Move σ) : Prop where
  content : ∃ r, Pauses move.before r ∧ Pauses (m.runContent move.step r) move.after
  configuration : move.before.session.configuration.move m.chart move.step.exitList
    move.step.entryList = (none, move.after.session.configuration)
  exits : ∃ xs : StateSet, move.step.exitList = m.chart.exitOrder xs.members
  entries : ∃ xs : StateSet, move.step.entryList = m.chart.entryOrder xs.members
  defaults : m.chart.TakesDefaults move.before.session.histories move.step.historyDefaults
  selected : move.step.transitions.Sublist (m.found (move.cause.event?.map Event.name)
    (move.before.mapSession (·.bindEvent move.cause.event?)))

variable {m}

theorem pauses_selectFor (event : Option Event) (r : Run σ) :
    Pauses r (m.selectFor event r).2 := by
  obtain ⟨dropped, hselect, -⟩ := m.selectFor_tell event r
  have hbind : Pauses r (r.mapSession (·.bindEvent event)) := .mapSession r _
  rw [hselect]
  refine hbind.trans (.tell _ ?_)
  intro e he
  rcases List.mem_append.1 he with he | he
  · obtain ⟨t, -, he⟩ := List.mem_flatMap.1 he
    unfold guardStory at he
    split at he
    · cases he
    · split at he
      · obtain rfl := List.mem_singleton.1 he
        exact ⟨rfl, rfl⟩
      · simp only [List.mem_cons, List.not_mem_nil, or_false] at he
        rcases he with rfl | rfl <;> exact ⟨rfl, rfl⟩
  · obtain ⟨x, -, rfl⟩ := List.mem_map.1 he
    exact ⟨rfl, rfl⟩

/-- Carrying out a plan enacts it. -/
theorem enacts_of_carryOut {move : Move σ} {plan : Plan} {step : Step} {r : Run σ}
    (h : m.carryOut (m.planned plan step) r = (.ok move.step, move.after))
    (hpauses : Pauses move.before r)
    (hconf : r.session.configuration = move.before.session.configuration)
    (hexits : ∃ xs : StateSet, plan.exitList = m.chart.exitOrder xs.members)
    (hentries : ∃ xs : StateSet, plan.entryList = m.chart.entryOrder xs.members)
    (hdefaults : m.chart.TakesDefaults move.before.session.histories
      plan.expansion.historyDefaults)
    (hselected : step.transitions.Sublist (m.found (move.cause.event?.map Event.name)
      (move.before.mapSession (·.bindEvent move.cause.event?)))) : m.Enacts move := by
  obtain ⟨conf, hmove, hafter, hstep⟩ := m.carryOut_ok h
  have hcontent : Evolves (fun _ => True) r (m.runContent (m.planned plan step) r) :=
    m.evolves_runContent (fun _ => trivial) (fun _ _ => trivial) r
  have hrun : m.runContent move.step r = m.runContent (m.planned plan step) r := by
    rw [hstep]
    rfl
  rw [hcontent.configuration, hconf] at hmove
  refine ⟨⟨r, hpauses, ?_⟩, ?_, ?_, ?_, ?_, ?_⟩
  · rw [hrun, hafter]
    exact .of_eq rfl
  · rw [hstep, hafter]
    exact hmove
  · rw [hstep]
    exact hexits
  · rw [hstep]
    exact hentries
  · rw [hstep]
    exact hdefaults
  · rw [hstep]
    exact hselected

/-- A microstep without transitions takes no defaults. -/
theorem historyDefaults_of_idle {event : Option Event} {r s : Run σ} {step : Step}
    (h : m.microstep event r = (.ok step, s)) (hidle : step.transitions = []) :
    step.historyDefaults = ∅ := by
  unfold microstep at h
  dsimp only at h
  split at h
  · obtain ⟨⟨rfl⟩, -⟩ := Prod.mk.inj h
    rfl
  · next hfired =>
    split at h
    · cases h
    · obtain ⟨-, -, -, rfl⟩ := m.carryOut_ok h
      exact absurd (List.isEmpty_iff.2 hidle) hfired

theorem enacts_of_microstep {move : Move σ} {r : Run σ} (hpauses : Pauses move.before r)
    (hsession : ∃ internal, r.session = { move.before.session with internal := internal })
    (h : m.microstep move.cause.event? r = (.ok move.step, move.after)) : m.Enacts move := by
  obtain ⟨internal, hsession⟩ := hsession
  have hfound : m.found (move.cause.event?.map Event.name)
      (r.mapSession (·.bindEvent move.cause.event?)) =
      m.found (move.cause.event?.map Event.name)
        (move.before.mapSession (·.bindEvent move.cause.event?)) := by
    unfold found foundBy enables viewOf
    simp only [Run.mapSession, hsession]
    rfl
  have hselected : (m.selectFor move.cause.event? r).1.Sublist
      (m.found (move.cause.event?.map Event.name)
        (move.before.mapSession (·.bindEvent move.cause.event?))) := by
    obtain ⟨dropped, hselect, -⟩ := m.selectFor_tell move.cause.event? r
    rw [hselect, ← hfound]
    simpa using keepFrom_sublist [] _
  have hacts := m.acts_selectFor move.cause.event? r
  have hkept : Pauses move.before (m.selectFor move.cause.event? r).2 :=
    hpauses.trans (pauses_selectFor _ r)
  have hidle := historyDefaults_of_idle h
  have hstep := m.microstep_spec move.cause.event? r
  rw [h] at hstep
  generalize hout : (Except.ok move.step, move.after) = out at hstep
  cases hstep with
  | @idle s step hselect hfired hexits hentries =>
    obtain ⟨hstep, rfl⟩ := Prod.mk.inj hout
    obtain rfl := Except.ok.inj hstep
    have hnone : move.step.transitions = [] := by simpa [Step.hasFired] using hfired
    rw [hselect] at hacts hkept
    refine ⟨⟨move.after, hkept, ?_⟩, ?_, ⟨∅, hexits⟩, ⟨∅, hentries⟩, ?_, ?_⟩
    · simp only [runContent, hexits, hentries, hnone, List.foldl_nil]
      exact .refl _
    · rw [hexits, hentries, hacts.configuration]
      simp only [Run.mapSession, hsession]
      rfl
    · rw [hidle hnone]
      intro x t hx
      simp at hx
    · rw [hnone]
      exact List.nil_sublist _
  | refused => cases hout
  | @fired ts s t step hselect hne hfired happrove htransitions =>
    rw [hselect] at hselected hacts hkept
    have hreports := m.reports_approve (m.planFor ts s) s
    rw [happrove] at hreports
    have hconf : s.session.configuration = move.before.session.configuration := by
      rw [hacts.configuration]
      simp only [Run.mapSession, hsession]
      rfl
    have hhistories : s.session.histories = move.before.session.histories := by
      rw [hacts.histories]
      simp only [Run.mapSession, hsession]
      rfl
    refine enacts_of_carryOut hout.symm ((hkept.trans hreports.pauses).trans (.of_eq rfl)) ?_
      ⟨_, rfl⟩ ⟨_, rfl⟩ ?_ ?_
    · rw [← hconf, ← hreports.notes.session]
      rfl
    · rw [← hhistories]
      exact m.chart.takesDefaults_expand _ _ _
    · rw [htransitions]
      exact hselected

/-- Every move enacts its step. -/
theorem Makes.enacts (hw : m.chart.WellFormed) {move : Move σ} (h : m.Makes move) :
    m.Enacts move := by
  unfold Makes at h
  split at h
  · obtain ⟨-, hstep⟩ := h
    have hinitial : m.chart.initial.isEmpty = false := by simp [hw.initial_ne_nil]
    unfold initialStep at hstep
    simp only [hinitial, Bool.false_eq_true, if_false] at hstep
    split at hstep
    · cases hstep
    · next s happrove =>
      have hreports :=
        m.reports_approve (m.chart.planStart move.before.session.histories) move.before
      rw [happrove] at hreports
      refine enacts_of_carryOut hstep hreports.pauses ?_ ⟨∅, rfl⟩ ⟨_, rfl⟩ ?_ ?_
      · rw [← hreports.notes.session]
      · exact m.chart.takesDefaults_expand _ _ _
      · exact List.nil_sublist _
  · next hcause =>
    refine enacts_of_microstep (.refl _) ⟨_, rfl⟩ ?_
    rw [hcause]
    exact h
  · next e hcause =>
    obtain ⟨r, htake, h⟩ := h
    have hmicrostep : m.microstep move.cause.event? r = (.ok move.step, move.after) := by
      rw [hcause]
      exact h
    unfold takeInternal at htake
    split at htake
    · cases htake
    · obtain ⟨-, rfl⟩ := Prod.mk.inj (Option.some.inj htake)
      refine enacts_of_microstep ?_ ?_ hmicrostep
      · exact ⟨[.taken _], rfl, by simp [Entry.began?, Entry.isDeed]⟩
      · exact ⟨_, rfl⟩
  · next e hcause =>
    refine enacts_of_microstep (.refl _) ⟨_, rfl⟩ ?_
    rw [hcause]
    exact h

/-- A move runs the blocks of its step. -/
theorem Makes.plays (hw : m.chart.WellFormed) {move : Move σ} (h : m.Makes move) :
    m.Plays (m.chart.blocks move.step) move.before move.after := by
  have henacts := h.enacts hw
  obtain ⟨r, hbefore, hafter⟩ := henacts.content
  exact ((plays_runContent hw henacts.defaults r).after hbefore).before hafter

end Moves

end Interpreter

end Statechart
