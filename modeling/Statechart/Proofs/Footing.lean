import Statechart.Proofs.Marks
import Statechart.Proofs.Moves
import Statechart.Proofs.Sessions

/-!
Legal steps. Under the strict policy a step that is carried out leads from a legal closure to a
legal closure, leaves states with all that is inside them and enters states after what is around
them. So what is known of the marks between two steps is kept if the content of such a step keeps
it; the course of operations is followed here once for all.
-/

namespace Statechart

namespace Chart

/-- Carrying out `plan` where the states `active` are active leaves states with all that is inside
them, enters states after what is around them, and has the closure of the next states active. -/
structure Shifts (c : Chart) (active : StateSet) (plan : Plan) : Prop where
  atomic : c.AllAtomic plan.next
  cuts : c.Cuts active plan.exitList
  opens : c.Opens (active.diff (.ofList plan.exitList)) plan.entryList
  stays : ∀ {x}, x ∈ active → x ∉ plan.exitList → c.isAtomic x = true → x ∈ plan.next
  reached : ∀ {x}, x ∈ c.closure plan.next.members →
    x ∈ active ∧ x ∉ plan.exitList ∨ x ∈ plan.entryList
  entered : ∀ {x}, x ∈ plan.entryList → x ∈ c.closure plan.next.members

variable {c : Chart}

/-- A state without children is not above others. -/
theorem WellFormed.mem_of_mem_closure (hw : c.WellFormed) {states : StateSet} {x : Nat}
    (hx : x ∈ c.closure states.members) (hatomic : c.isAtomic x = true) : x ∈ states := by
  obtain ⟨s, hs, hsx⟩ := hw.mem_closure.1 hx
  have hcomposite : ¬ c.IsComposite x := by
    intro h
    simp [h.not_atomic] at hatomic
  obtain rfl := hw.eq_of_within hcomposite hsx
  exact hs

/-- States of which the next have nothing else around them are entered one after the other. -/
theorem opens_entryOrder (hw : c.WellFormed) {active entries : StateSet}
    (hnew : ∀ s ∈ entries, s ∉ active)
    (hparent : ∀ s ∈ entries, ∀ q, c.parent s = some q → q ∈ active ∨ q ∈ entries) :
    c.Opens active (c.entryOrder entries.members) := by
  refine opens_of_pairwise hw (c.entryOrder_depth _) (c.nodup_entryOrder entries) ?_ ?_
  · exact fun s hs => hnew s (mem_entryOrder.1 hs)
  · exact fun s hs q hq => (hparent s (mem_entryOrder.1 hs) q hq).imp_right mem_entryOrder.2

theorem shifts_planStart (hw : c.WellFormed) {histories : Histories} (hh : histories.Known c) :
    c.Shifts ∅ (c.planStart histories) where
  atomic := allAtomic_planStart hw hh
  cuts := ⟨nofun, nofun, nofun⟩
  opens := by
    apply opens_entryOrder hw
    · intro s _ hs
      exact absurd (StateSet.mem_diff.1 hs).1 (StateSet.not_mem_empty s)
    · intro s hs q hq
      exact .inr (hw.closure_upward hs (hw.below_parent hq).within)
  stays h := absurd h (StateSet.not_mem_empty _)
  reached h := .inr (mem_entryOrder.2 h)
  entered h := mem_entryOrder.1 h

section Plans

variable (hw : c.WellFormed) {before : Status} {ts : List Nat}
  (hl : c.Legal (c.closure before.states.members)) (hfire : c.FireTogether before.states ts)

include hw hl hfire

/-- What is left is all that is active inside domains, and a domain is not parallel. -/
theorem cuts_exited {exits : List Nat} (hexits : ∀ x, x ∈ exits ↔ x ∈ c.exited before.states ts) :
    c.Cuts (c.closure before.states.members) exits where
  subset x hx := ((mem_exited hw hl hfire).1 ((hexits x).1 hx)).1
  inside {x y} hx hy hyx := by
    obtain ⟨-, t, ht, htargets, hdomain⟩ := (mem_exited hw hl hfire).1 ((hexits x).1 hx)
    refine (hexits y).2 ((mem_exited hw hl hfire).2 ⟨hy, t, ht, htargets, ?_⟩)
    exact hw.inDomain_of_within hyx hdomain
  region {x q} hx hq hk := by
    obtain ⟨hxC, t, ht, htargets, hdomain⟩ := (mem_exited hw hl hfire).1 ((hexits x).1 hx)
    refine (hexits q).2 ((mem_exited hw hl hfire).2 ⟨hl.upward hxC hq, t, ht, htargets, ?_⟩)
    intro a ha
    have hxa := hdomain a ha
    rcases within_iff.1 ((hw.below_iff_within_parent hq).1 hxa) with rfl | hqa
    · have hkind := (domain_spec (ha ▸ hw.isDomain_scope (c.transition t))).1
      simp [hkind] at hk
    · exact hqa

theorem shifts_plan {histories : Histories} (hh : histories.Known c)
    (hatomic : c.AllAtomic before.states) (hall : before.all = c.closure before.states.members) :
    c.Shifts (c.closure before.states.members) (c.plan histories before ts) where
  atomic := allAtomic_plan hw hh hatomic ts
  cuts := cuts_exited hw hl hfire fun _ => mem_exitList
  opens := by
    have hkept : ∀ {x}, x ∈ (c.closure before.states.members).diff
        (.ofList (c.plan histories before ts).exitList) ↔
          x ∈ before.all.diff (c.exited before.states ts) := by
      intro x
      rw [StateSet.mem_diff, StateSet.mem_diff, StateSet.mem_ofList, mem_exitList, hall]
    apply opens_entryOrder hw
    · intro s hs hsk
      exact (StateSet.mem_diff.1 hs).2 (hkept.1 hsk)
    · intro s hs q hq
      have hqC := hw.closure_upward (StateSet.mem_diff.1 hs).1 (hw.below_parent hq).within
      by_cases hqk : q ∈ before.all.diff (c.exited before.states ts)
      · exact .inl (hkept.2 hqk)
      · exact .inr (StateSet.mem_diff.2 ⟨hqC, hqk⟩)
  stays {x} hx hxe hxa := by
    have hs := hw.mem_of_mem_closure hx hxa
    exact StateSet.mem_union.2 (.inl (StateSet.mem_diff.2 ⟨hs, fun h => hxe (mem_exitList.2 h)⟩))
  reached {x} hx := by
    by_cases hactive : x ∈ before.all ∧ x ∉ (c.plan histories before ts).exitList
    · exact .inl (hall ▸ hactive)
    · exact .inr (mem_entryList.2 ⟨hx, hactive⟩)
  entered hx := (mem_entryList.1 hx).1

end Plans

end Chart

namespace Interpreter

variable {σ : Type} (m : Interpreter σ)

/-- The active states that have active states without children inside them, or are such. -/
def footing (r : Run σ) : StateSet :=
  m.chart.closure (r.session.configuration.atomic m.chart).members

/-- Between two steps: the states of the footing are legal and active, what is published goes with
the configuration, and the histories remember states of the chart. -/
structure Footed (r : Run σ) : Prop where
  status : ∃ pending, r.session.status = .capture m.chart r.session.configuration pending
  known : r.session.histories.Known m.chart
  legal : m.chart.Legal (m.footing r)
  active : ∀ x ∈ m.footing r, x ∈ r.session.configuration.active

/-- The move leaves states with all that is inside them, then enters states after what is around
them, and its content runs in between; on final states this accounts for the footing after it. -/
structure Treads (move : Move σ) : Prop where
  cuts : m.chart.Cuts (m.footing move.before) move.step.exitList
  opens : m.chart.Opens ((m.footing move.before).diff (.ofList move.step.exitList))
    move.step.entryList
  entered : ∀ x ∈ move.step.entryList, x ∈ m.footing move.after
  final : ∀ f, m.chart.kind f = .final →
    (f ∈ ((m.footing move.before).diff (.ofList move.step.exitList)).insertAll
      move.step.entryList ↔ f ∈ m.footing move.after)
  content : ∃ r, SameMarks move.before r ∧ SameMarks (m.runContent move.step r) move.after

/-- The runs differ in nothing on which a move and the marks depend. -/
structure Alike (r s : Run σ) : Prop where
  configuration : s.session.configuration = r.session.configuration
  status : ∃ pending, s.session.status = { r.session.status with pending := pending }
  histories : s.session.histories = r.session.histories
  completed : s.session.completed = r.session.completed

variable {m}

theorem mem_footing_of_final {r : Run σ} (hw : m.chart.WellFormed) {f : Nat}
    (hf : f ∈ r.session.configuration.active) (hk : m.chart.kind f = .final) :
    f ∈ m.footing r := by
  have hatomic : f ∈ r.session.configuration.atomic m.chart :=
    StateSet.mem_filter.2 ⟨hf, by simp [Chart.isAtomic, NodeKind.isAtomic, hk]⟩
  exact hw.mem_closure_of_mem hatomic

theorem footing_of_empty {r : Run σ} (hconf : r.session.configuration = .empty) :
    m.footing r = ∅ := by
  rw [footing, hconf]
  rfl

theorem SameState.alike {r s : Run σ} (h : SameState r s) : Alike r s :=
  ⟨h.configuration, ⟨_, h.status⟩, h.histories, h.marks.1⟩

theorem Alike.footing {r s : Run σ} (h : Alike r s) : m.footing s = m.footing r := by
  rw [Interpreter.footing, Interpreter.footing, h.configuration]

theorem Footed.alike {r s : Run σ} (h : m.Footed r) (halike : Alike r s) : m.Footed s := by
  obtain ⟨pending, hstatus⟩ := h.status
  obtain ⟨pending', hstatus'⟩ := halike.status
  refine ⟨⟨pending', ?_⟩, ?_, ?_, ?_⟩
  · rw [hstatus', hstatus, halike.configuration]
    rfl
  · rw [halike.histories]
    exact h.known
  · rw [halike.footing]
    exact h.legal
  · rw [halike.footing, halike.configuration]
    exact h.active

/-- Where nothing is active and nothing is remembered there is nothing to keep right. -/
theorem footed_of_empty {r : Run σ} (hconf : r.session.configuration = .empty)
    (hstatus : ∃ pending, r.session.status = .capture m.chart r.session.configuration pending)
    (hhistories : r.session.histories = ∅) : m.Footed r := by
  have hfooting : m.footing r = ∅ := footing_of_empty hconf
  refine ⟨hstatus, ?_, ?_, ?_⟩
  · rw [hhistories]
    intro h states hget
    cases hget
  · rw [hfooting]
    exact Chart.legal_empty
  · rw [hfooting]
    exact fun x hx => absurd hx (StateSet.not_mem_empty x)

theorem footed_new (id : SessionId) (world : σ) : m.Footed (Run.new id world) :=
  footed_of_empty rfl ⟨0, rfl⟩ rfl

theorem footed_reset (r : Run σ) : m.Footed (m.reset r) := by
  obtain ⟨hconf, hhistories, -⟩ := m.cleared_reset r
  exact footed_of_empty hconf ⟨_, rfl⟩ hhistories

theorem told_reset (p : Nat) (r : Run σ) : m.told p (m.reset r) = m.told p r := by
  have hdata := (m.acts_initializeData (m.clear r)).sameMarks
  exact (told_of_sameMarks hdata p).trans
    (told_of_sameMarks (m.acts_cancelAllInvokes r).sameMarks p)

/-- What lasts as long as runs are alike, holds of a cleared session and is kept by every move
holds before each move of a course, and in the end. -/
theorem Passes.holds {P : Run σ → Prop} (halike : ∀ {r s}, P r → Alike r s → P s)
    (hreset : ∀ r, P (m.reset r))
    (hmoved : ∀ {move}, m.Makes move → P move.before → P move.after)
    {r t : Run σ} {stages : List (Stage σ)} (h : m.Passes r stages t) (hr : P r) :
    (∀ move, .moved move ∈ stages → P move.before) ∧ P t := by
  induction h with
  | done r => exact ⟨fun move hmove => absurd hmove List.not_mem_nil, hr⟩
  | acts hacts _ ih => exact ih (halike hr (SameState.of_acts hacts).alike)
  | publishPending _ ih => exact ih (halike hr ⟨rfl, ⟨_, rfl⟩, rfl, rfl⟩)
  | halt _ ih => exact ih (halike hr ⟨rfl, ⟨_, rfl⟩, rfl, rfl⟩)
  | moved hmakes _ _ ih =>
    obtain ⟨hmoves, ht⟩ := ih (hmoved hmakes hr)
    refine ⟨fun other hother => ?_, ht⟩
    rcases List.mem_cons.1 hother with heq | hother
    · cases heq
      exact hr
    · exact hmoves other hother
  | @reset r _ _ _ ih =>
    obtain ⟨hmoves, ht⟩ := ih (hreset r)
    exact ⟨fun move hmove => hmoves move (by simpa using hmove), ht⟩
  | @go r s _ step _ hstep _ ih =>
    have hready : P (m.ready r) := halike (hreset r) ⟨rfl, ⟨_, rfl⟩, rfl, rfl⟩
    have hmakes : m.Makes ⟨.start, m.ready r, step, s⟩ := ⟨⟨r, rfl⟩, hstep⟩
    obtain ⟨hmoves, ht⟩ := ih (hmoved hmakes hready)
    refine ⟨fun other hother => ?_, ht⟩
    simp only [List.mem_cons, Stage.moved.injEq, reduceCtorEq, false_or] at hother
    rcases hother with rfl | hother
    · exact hready
    · exact hmoves other hother

/-- Nothing is told between the moves of a course. -/
theorem Passes.told_eq {p : Nat} {r t : Run σ} {stages : List (Stage σ)} (h : m.Passes r stages t)
    (weight : Stage σ → Nat) (hcleared : weight .cleared = 0)
    (hmoves : ∀ move, .moved move ∈ stages →
      m.told p move.after = m.told p move.before + weight (.moved move)) :
    m.told p t = m.told p r + (stages.map weight).sum := by
  induction h with
  | done r => rfl
  | acts hacts _ ih => rw [ih hmoves, told_of_sameMarks hacts.sameMarks]
  | publishPending _ ih => exact ih hmoves
  | halt _ ih => exact ih hmoves
  | @moved move t stages _ _ _ ih =>
    rw [ih (fun other hother => hmoves other (List.mem_cons_of_mem _ hother)),
      hmoves move (by simp), List.map_cons, List.sum_cons, Nat.add_assoc]
  | @reset r t stages _ ih =>
    rw [ih (fun other hother => hmoves other (List.mem_cons_of_mem _ hother)), told_reset,
      List.map_cons, List.sum_cons, hcleared, Nat.zero_add]
  | @go r s t step stages _ _ ih =>
    have hfirst : m.told p s = m.told p r + weight (.moved ⟨.start, m.ready r, step, s⟩) := by
      rw [hmoves ⟨.start, m.ready r, step, s⟩ (by simp)]
      exact congrArg (· + _) (told_reset p r)
    rw [ih (fun other hother => hmoves other (by simp [hother])), hfirst]
    simp only [List.map_cons, List.sum_cons, hcleared, Nat.zero_add, Nat.add_assoc]

section Moves

variable (hw : m.chart.WellFormed)
  (hcheck : m.config.checkLegality = true) (hfatal : m.config.legality = .fatal)

include hw

/-- After the move the states around the next states are what states are active on. -/
theorem footing_of_carries {move : Move σ} {plan : Plan} (hcarries : m.Carries move plan)
    (hshifts : m.chart.Shifts (m.footing move.before) plan)
    (hactive : ∀ x ∈ m.footing move.before, x ∈ move.before.session.configuration.active) :
    m.footing move.after = m.chart.closure plan.next.members ∧
      ∀ x ∈ m.footing move.after, x ∈ move.after.session.configuration.active := by
  have hmem : ∀ {x}, x ∈ move.after.session.configuration.active ↔
      x ∈ move.before.session.configuration.active ∧ x ∉ plan.exitList ∨ x ∈ plan.entryList :=
    Configuration.mem_move hcarries.configuration
  have hreached : ∀ {x}, x ∈ m.chart.closure plan.next.members →
      x ∈ move.after.session.configuration.active := by
    intro x hx
    exact hmem.2 ((hshifts.reached hx).imp_left (fun h => ⟨hactive x h.1, h.2⟩))
  have hatomic : move.after.session.configuration.atomic m.chart = plan.next := by
    apply StateSet.ext
    intro x
    rw [Configuration.atomic, StateSet.mem_filter, hmem]
    constructor
    · rintro ⟨⟨hx, hxe⟩ | hx, hxa⟩
      · have hatomic : x ∈ move.before.session.configuration.atomic m.chart :=
          StateSet.mem_filter.2 ⟨hx, hxa⟩
        exact hshifts.stays (hw.mem_closure_of_mem hatomic) hxe hxa
      · exact hw.mem_of_mem_closure (hshifts.entered hx) hxa
    · intro hx
      exact ⟨hmem.1 (hreached (hw.mem_closure_of_mem hx)), (hshifts.atomic x hx).1⟩
  have hfooting : m.footing move.after = m.chart.closure plan.next.members := by
    rw [footing, hatomic]
  rw [hfooting]
  exact ⟨rfl, fun x hx => hreached hx⟩

include hcheck hfatal

theorem Footed.carried {move : Move σ} {plan : Plan} (h : m.Footed move.before)
    (hcarries : m.Carries move plan) (hshifts : m.chart.Shifts (m.footing move.before) plan) :
    m.Footed move.after ∧ m.Treads move := by
  obtain ⟨hfooting, hactive⟩ := footing_of_carries hw hcarries hshifts h.active
  have hstates : ∀ x ∈ move.before.session.status.states, x < m.chart.nodes.size := by
    obtain ⟨pending, hstatus⟩ := h.status
    intro x hx
    rw [hstatus] at hx
    exact (h.legal.ordinary (hw.mem_closure_of_mem hx)).1
  refine ⟨⟨⟨_, hcarries.status⟩, ?_, ?_, hactive⟩, ⟨?_, ?_, ?_, ?_, hcarries.content⟩⟩
  · rw [hcarries.histories]
    exact h.known.recordAll hw hstates plan.exitList
  · rw [hfooting]
    exact (hw.violations_eq_nil_iff hshifts.atomic).1 (hcarries.approved hcheck hfatal)
  · rw [hcarries.exits]
    exact hshifts.cuts
  · rw [hcarries.exits, hcarries.entries]
    exact hshifts.opens
  · rw [hcarries.entries, hfooting]
    exact fun x hx => hshifts.entered hx
  · -- What stays of states without children inside counts for nothing here.
    intro f hk
    rw [hfooting, StateSet.mem_insertAll, StateSet.mem_diff, StateSet.mem_ofList, hcarries.exits,
      hcarries.entries]
    refine ⟨?_, hshifts.reached⟩
    rintro (⟨hf, hfe⟩ | hf)
    · have hatomic : m.chart.isAtomic f = true := by simp [Chart.isAtomic, NodeKind.isAtomic, hk]
      exact hw.mem_closure_of_mem (hshifts.stays hf hfe hatomic)
    · exact hshifts.entered hf

omit hw hcheck hfatal in
/-- A move in which nothing fires leaves and enters nothing. -/
theorem Footed.idle {move : Move σ} (h : m.Footed move.before)
    (htransitions : move.step.transitions = []) (hexits : move.step.exitList = [])
    (hentries : move.step.entryList = []) (hsame : SameState move.before move.after) :
    m.Footed move.after ∧ m.Treads move := by
  have hrun : m.runContent move.step move.before = move.before := by
    simp only [runContent, htransitions, hexits, hentries, List.foldl_nil]
  refine ⟨h.alike hsame.alike, ?_, ?_, ?_, ?_, move.before, .refl _, ?_⟩
  · rw [hexits]
    exact ⟨nofun, nofun, nofun⟩
  · rw [hentries]
    exact .nil _
  · rw [hentries]
    exact nofun
  · intro f _
    rw [hsame.alike.footing, hexits, hentries, StateSet.mem_insertAll, StateSet.mem_diff,
      StateSet.mem_ofList]
    simp
  · rw [hrun]
    exact hsame.marks

/-- Under the strict policy every move leads from a legal footing to a legal footing. -/
theorem Footed.moved {move : Move σ} (h : m.Footed move.before) (hmakes : m.Makes move) :
    m.Footed move.after ∧ m.Treads move := by
  cases hmakes.goes hw with
  | idle htransitions hexits hentries hsame => exact h.idle htransitions hexits hentries hsame
  | fired _ _ htogether hcarries =>
    obtain ⟨pending, hstatus⟩ := h.status
    have hstates : m.footing move.before =
        m.chart.closure move.before.session.status.states.members := by
      rw [hstatus]
      rfl
    have hlegal := h.legal
    rw [hstates] at hlegal
    have hatomic : m.chart.AllAtomic move.before.session.status.states := by
      intro x hx
      refine ⟨?_, (hlegal.ordinary (hw.mem_closure_of_mem hx)).1⟩
      rw [hstatus] at hx
      exact (StateSet.mem_filter.1 hx).2
    have hall : move.before.session.status.all =
        m.chart.closure move.before.session.status.states.members := by
      rw [hstatus]
      rfl
    have hshifts := Chart.shifts_plan hw hlegal htogether h.known hatomic hall
    rw [← hstates] at hshifts
    exact h.carried hw hcheck hfatal hcarries hshifts
  | @entered r hbefore _ hcarries =>
    have hshifts := Chart.shifts_planStart hw h.known
    have hempty : m.footing move.before = ∅ := by
      rw [hbefore]
      exact footing_of_empty (m.cleared_reset r).1
    rw [← hempty] at hshifts
    exact h.carried hw hcheck hfatal hcarries hshifts

end Moves

end Interpreter

end Statechart
