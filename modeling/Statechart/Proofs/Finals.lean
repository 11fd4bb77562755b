import Statechart.Proofs.Completing

/-!
Compound states end. A compound state is marked when a final child of it is entered; the mark is
taken away when that child or the state itself is left, and once more when the state is entered.
Each of these changes is made where one state is left or entered. So under the strict policy,
where no two children of a compound state are active, the mark says between any two steps that a
final child is active, and each final child that a step enters is told of by one event.
-/

namespace Statechart

/-- The states entered at the stage, in order. -/
def Stage.entered {σ : Type} : Stage σ → List Nat
  | cleared => []
  | moved move => move.step.entryList

namespace Chart

/-- A final child of the state `p` is active. -/
def Ended (c : Chart) (active : StateSet) (p : Nat) : Prop :=
  ∃ f ∈ active, c.kind f = .final ∧ c.parent f = some p

/-- How many of `states` are final children of the state `p`. -/
def countFinals (c : Chart) (p : Nat) (states : List Nat) : Nat :=
  states.countP fun f => decide (c.kind f = .final ∧ c.parent f = some p)

variable {c : Chart} {active kept completed completed' : StateSet} {p : Nat}

theorem countFinals_cons (c : Chart) (p s : Nat) (rest : List Nat) :
    c.countFinals p (s :: rest) = c.countFinals p [s] + c.countFinals p rest := by
  rw [countFinals, countFinals, countFinals, ← List.countP_append]
  rfl

theorem ended_congr (h : ∀ f, c.kind f = .final → (f ∈ active ↔ f ∈ kept)) :
    c.Ended active p ↔ c.Ended kept p := by
  refine exists_congr fun f => ?_
  rw [← and_assoc, ← and_assoc]
  refine and_congr_left fun _ => ?_
  exact ⟨fun ⟨hf, hk⟩ => ⟨(h f hk).1 hf, hk⟩, fun ⟨hf, hk⟩ => ⟨(h f hk).2 hf, hk⟩⟩

theorem not_ended_empty : ¬ c.Ended ∅ p := by
  rintro ⟨f, hf, -⟩
  exact StateSet.not_mem_empty f hf

theorem ended_insert {s : Nat} : c.Ended (active.insert s) p ↔
    c.kind s = .final ∧ c.parent s = some p ∨ c.Ended active p := by
  constructor
  · rintro ⟨f, hf, hfinal⟩
    rcases StateSet.mem_insert.1 hf with rfl | hf
    · exact .inl hfinal
    · exact .inr ⟨f, hf, hfinal⟩
  · rintro (hfinal | ⟨f, hf, hfinal⟩)
    · exact ⟨s, StateSet.mem_insert.2 (.inl rfl), hfinal⟩
    · exact ⟨f, StateSet.mem_insert.2 (.inr hf), hfinal⟩

theorem Ended.mem_of_rooted (h : c.Ended active p) (hrooted : c.Rooted active) : p ∈ active := by
  obtain ⟨f, hf, -, hp⟩ := h
  exact hrooted hf hp

/-- States that are left leave the mark of a compound state right: it keeps no final child while
it is left itself or while another final child of it is left. -/
theorem ended_cut (hw : c.WellFormed) (hp : c.kind p = .compound) {exits : List Nat}
    (hcuts : c.Cuts active exits) (hkept : ∀ x, x ∈ kept ↔ x ∈ active ∧ x ∉ exits)
    (hl : c.Legal active)
    (hcompleted : ∀ x, x ∈ completed' ↔ x ∈ completed ∧ ∀ s ∈ exits, ¬ c.Withdraws s x)
    (h : p ∈ completed ↔ c.Ended active p) : p ∈ completed' ↔ c.Ended kept p := by
  rw [hcompleted, h]
  constructor
  · rintro ⟨⟨f, hf, hk, hfp⟩, hnone⟩
    have hstays : f ∉ exits := fun hexit => hnone f hexit (.inr ⟨hk, .inl hfp⟩)
    exact ⟨f, (hkept f).2 ⟨hf, hstays⟩, hk, hfp⟩
  · rintro ⟨f, hf, hk, hfp⟩
    refine ⟨⟨f, ((hkept f).1 hf).1, hk, hfp⟩, ?_⟩
    rintro s hs (rfl | ⟨hsk, hsp | ⟨-, -, -, hparallel⟩⟩)
    · exact hcuts.not_left hw hkept (.compound hp hk hfp hf) hs
    · exact hcuts.not_compound hw hkept hl hs hf hsk hk hsp hfp hp
    · simp [hp] at hparallel

/-- Where a final state at the top level is active nothing else is. -/
theorem eq_of_top_final (hw : c.WellFormed) (hl : c.Legal active) {f x : Nat} (hf : f ∈ active)
    (hk : c.kind f = .final) (htop : c.parent f = none) (hx : x ∈ active) : x = f := by
  obtain ⟨t, ht, hxt⟩ := hw.exists_top x
  obtain rfl := hl.top (hw.upward_of_legal hl hx hxt) hf ht htop
  apply hw.eq_of_within _ hxt
  rintro (h | h)
  · simp [hk] at h
  · simp [hk] at h

end Chart

namespace Interpreter

variable {σ : Type} (m : Interpreter σ)

/-- The state `p` is marked exactly if a final child of it is active. -/
def MarkedEnded (p : Nat) (r : Run σ) : Prop :=
  p ∈ r.session.completed ↔ m.chart.Ended r.session.configuration.active p

/-- What holds of the mark of the compound state `p` between two steps. -/
structure Ends (p : Nat) (r : Run σ) : Prop where
  footed : m.Footed r
  marked : p ∈ r.session.completed ↔ m.chart.Ended (m.footing r) p

variable {m}

theorem Untold.foldl {α : Type} {f : Run σ → α → Run σ} {xs : List α}
    (h : ∀ x ∈ xs, ∀ r, Untold r (f r x)) (r : Run σ) : Untold r (xs.foldl f r) := by
  induction xs generalizing r with
  | nil => exact fun _ => rfl
  | cons x rest ih =>
    obtain ⟨hx, hrest⟩ := List.forall_mem_cons.1 h
    exact (hx r).trans (ih hrest (f r x))

/-- A state that completes nothing is entered without being told of. -/
theorem untold_enter (step : Step) {s : Nat}
    (haside : m.chart.kind s = .final → m.chart.parent s = none) (r : Run σ) :
    Untold r (m.enter step s r) := by
  obtain ⟨t, hmarks, heq⟩ := m.enter_eq step s r
  have htold : Untold r t := hmarks.2
  rw [heq]
  split
  · next hk =>
    rw [completeAround, haside hk]
    exact htold
  · exact htold

theorem untold_runContent (step : Step)
    (haside : ∀ s ∈ step.entryList, m.chart.kind s = .final → m.chart.parent s = none)
    (r : Run σ) : Untold r (m.runContent step r) := by
  have hleft := (m.leaveAll_spec step.exitList r).2
  have hfired : Untold _ _ := (m.sameMarks_fireAll step.transitions
    (step.exitList.foldl (fun r s => m.leave s r) r)).2
  have hentered := Untold.foldl (fun s hs r => untold_enter step (haside s hs) r)
    (step.transitions.foldl (fun r t => m.fire t r)
      (step.exitList.foldl (fun r s => m.leave s r) r))
  exact (hleft.trans hfired).trans hentered

section Marks

variable (hw : m.chart.WellFormed) {p : Nat} (hp : m.chart.kind p = .compound)

include hw hp

/-- Entering a final state marks the compound state around it and tells of it. -/
theorem ended_completeAround {s q : Nat} (hk : m.chart.kind s = .final)
    (hq : m.chart.parent s = some q) (r : Run σ) :
    (p ∈ (m.completeAround s r).session.completed ↔ p = q ∨ p ∈ r.session.completed) ∧
      m.told p (m.completeAround s r) = m.told p r + if p = q then 1 else 0 := by
  obtain ⟨y, t, hy, hcompleted, htold, hparallel, hother⟩ := m.completeAround_eq hw hq r
  have hmarked : p ∈ t.session.completed ↔ p = q ∨ p ∈ r.session.completed := by
    rw [hcompleted, StateSet.mem_insert]
    refine or_congr_left ?_
    rcases hy with ⟨hqk, rfl⟩ | ⟨-, rfl⟩
    · refine iff_of_false ?_ ?_
      · rintro rfl
        simp [hk] at hp
      · rintro rfl
        simp [hqk] at hp
    · rfl
  have htells : m.told p t = m.told p r + if p = q then 1 else 0 := by
    rw [htold p (.inl hp)]
    simp only [hp, true_and]
  by_cases hg : ∃ g, m.chart.parent y = some g ∧ m.chart.kind g = .parallel
  · obtain ⟨g, hg, hgk⟩ := hg
    have hpg : p ≠ g := by
      rintro rfl
      simp [hgk] at hp
    obtain ⟨hmem, hsame⟩ := m.completeParallel_aside hw hgk t
    rw [hparallel g hg hgk, hmem p hpg, hsame p (.inl hp) hpg]
    exact ⟨hmarked, htells⟩
  · rw [hother (fun g hyg hgk => hg ⟨g, hyg, hgk⟩)]
    exact ⟨hmarked, htells⟩

/-- A state that is entered leaves the mark right, and it is told if it is a final child. -/
theorem ended_enter {active : StateSet} {s : Nat} (hs : s ∉ active)
    (hrooted : m.chart.Rooted active) (step : Step) {r : Run σ}
    (h : p ∈ r.session.completed ↔ m.chart.Ended active p) :
    (p ∈ (m.enter step s r).session.completed ↔ m.chart.Ended (active.insert s) p) ∧
      m.told p (m.enter step s r) = m.told p r + m.chart.countFinals p [s] := by
  obtain ⟨t, hmarks, heq⟩ := m.enter_eq step s r
  have htold : m.told p t = m.told p r := told_of_sameMarks hmarks p
  -- No final child of a state is active before the state, so there is no mark to take away.
  have ht : p ∈ t.session.completed ↔ m.chart.Ended active p := by
    rw [← h, hmarks.1]
    refine StateSet.mem_erase.trans (and_iff_left_of_imp ?_)
    rintro hmarked rfl
    exact hs ((h.1 hmarked).mem_of_rooted hrooted)
  have haside : ¬ (m.chart.kind s = .final ∧ m.chart.parent s = some p) →
      m.enter step s r = t → (p ∈ (m.enter step s r).session.completed ↔
        m.chart.Ended (active.insert s) p) ∧
      m.told p (m.enter step s r) = m.told p r + m.chart.countFinals p [s] := by
    intro haside hsame
    rw [hsame, Chart.ended_insert, or_iff_right haside, Chart.countFinals,
      List.countP_singleton, if_neg (by simpa using haside)]
    exact ⟨ht, htold⟩
  by_cases hk : m.chart.kind s = .final
  · rw [if_pos hk] at heq
    cases hq : m.chart.parent s with
    | none =>
      apply haside (by simp [hq])
      rw [heq, completeAround, hq]
    | some q =>
      obtain ⟨hmarked, htells⟩ := ended_completeAround hw hp hk hq t
      rw [heq, Chart.ended_insert, hmarked, htells, ht, htold, Chart.countFinals,
        List.countP_singleton]
      simp [hk, hq, eq_comm]
  · rw [if_neg hk] at heq
    exact haside (fun h => hk h.1) heq

theorem ended_enterAll (step : Step) {active : StateSet} {entries : List Nat}
    (hopens : m.chart.Opens active entries) (hrooted : m.chart.Rooted active) {r : Run σ}
    (h : p ∈ r.session.completed ↔ m.chart.Ended active p) :
    (p ∈ (entries.foldl (fun r s => m.enter step s r) r).session.completed ↔
        m.chart.Ended (active.insertAll entries) p) ∧
      m.told p (entries.foldl (fun r s => m.enter step s r) r) =
        m.told p r + m.chart.countFinals p entries := by
  induction hopens generalizing r with
  | nil active => exact ⟨h, rfl⟩
  | @cons active s rest hs hparent _ ih =>
    obtain ⟨hentered, htold⟩ := ended_enter hw hp hs hrooted step h
    obtain ⟨hmarked, htoldRest⟩ := ih (hrooted.insert hparent) hentered
    refine ⟨hmarked, ?_⟩
    rw [List.foldl_cons, htoldRest, htold, m.chart.countFinals_cons p s rest, Nat.add_assoc]

/-- The content of a step leaves the mark right, and every final child that is entered is told
of. -/
theorem ended_runContent {step : Step} {active : StateSet} (hl : m.chart.Legal active)
    (hcuts : m.chart.Cuts active step.exitList)
    (hopens : m.chart.Opens (active.diff (.ofList step.exitList)) step.entryList) {r : Run σ}
    (h : p ∈ r.session.completed ↔ m.chart.Ended active p) :
    (p ∈ (m.runContent step r).session.completed ↔
        m.chart.Ended ((active.diff (.ofList step.exitList)).insertAll step.entryList) p) ∧
      m.told p (m.runContent step r) =
        m.told p r + m.chart.countFinals p step.entryList := by
  obtain ⟨hleft, htoldLeft⟩ := m.leaveAll_spec step.exitList r
  have hkept : ∀ x, x ∈ active.diff (.ofList step.exitList) ↔ x ∈ active ∧ x ∉ step.exitList := by
    intro x
    rw [StateSet.mem_diff, StateSet.mem_ofList]
  have hcut := Chart.ended_cut hw hp hcuts hkept hl hleft h
  have hfire := m.sameMarks_fireAll step.transitions
    (step.exitList.foldl (fun r s => m.leave s r) r)
  rw [← hfire.1] at hcut
  obtain ⟨hmarked, htold⟩ := ended_enterAll hw hp step hopens (hcuts.rooted hw hl) hcut
  refine ⟨hmarked, htold.trans ?_⟩
  exact congrArg (· + _) ((told_of_sameMarks hfire p).trans (htoldLeft _))

end Marks

variable {p : Nat}

/-- A final state that is active is active with the states around it. -/
theorem Footed.ended_iff (hw : m.chart.WellFormed) {r : Run σ} (h : m.Footed r) :
    m.chart.Ended (m.footing r) p ↔ m.chart.Ended r.session.configuration.active p :=
  Chart.ended_congr fun f hk => ⟨h.active f, fun hf => mem_footing_of_final hw hf hk⟩

theorem Ends.markedEnded (hw : m.chart.WellFormed) {r : Run σ} (h : m.Ends p r) :
    m.MarkedEnded p r :=
  h.marked.trans (h.footed.ended_iff hw)

theorem Ends.alike {r s : Run σ} (h : m.Ends p r) (halike : Alike r s) : m.Ends p s := by
  refine ⟨h.footed.alike halike, ?_⟩
  rw [halike.footing, halike.completed]
  exact h.marked

theorem ends_of_empty {r : Run σ} (h : m.Footed r)
    (hconf : r.session.configuration = .empty) (hcompleted : r.session.completed = ∅) :
    m.Ends p r := by
  refine ⟨h, ?_⟩
  rw [footing_of_empty hconf, hcompleted]
  exact iff_of_false (StateSet.not_mem_empty p) Chart.not_ended_empty

theorem ends_new (p : Nat) (id : SessionId) (world : σ) : m.Ends p (Run.new id world) :=
  ends_of_empty (footed_new id world) rfl rfl

theorem ends_reset (p : Nat) (r : Run σ) : m.Ends p (m.reset r) := by
  obtain ⟨hconf, -, hcompleted⟩ := m.cleared_reset r
  exact ends_of_empty (footed_reset r) hconf hcompleted

section Moves

variable (hw : m.chart.WellFormed)

include hw

/-- A step that enters a final state at the top level enters nothing else, and tells of nothing. -/
theorem Treads.untold {move : Move σ} (h : m.Treads move) (hafter : m.Footed move.after) {f : Nat}
    (hf : f ∈ move.step.entryList) (hk : m.chart.kind f = .final)
    (htop : m.chart.parent f = none) : Untold move.before move.after := by
  obtain ⟨r, hbefore, hrun⟩ := h.content
  have haside : ∀ s ∈ move.step.entryList, m.chart.kind s = .final → m.chart.parent s = none := by
    intro s hs _
    rw [Chart.eq_of_top_final hw hafter.legal (h.entered f hf) hk htop (h.entered s hs)]
    exact htop
  have hstart : Untold move.before r := hbefore.2
  exact (hstart.trans (untold_runContent move.step haside r)).trans hrun.2

variable (hcheck : m.config.checkLegality = true) (hfatal : m.config.legality = .fatal)

include hcheck hfatal

/-- Every move leaves the mark right and tells of the final children that it enters. -/
theorem Ends.moved (hp : m.chart.kind p = .compound) {move : Move σ} (h : m.Ends p move.before)
    (hmakes : m.Makes move) : m.Ends p move.after ∧
      m.told p move.after =
        m.told p move.before + m.chart.countFinals p move.step.entryList := by
  obtain ⟨hfooted, htreads⟩ := h.footed.moved hw hcheck hfatal hmakes
  obtain ⟨r, hbefore, hafter⟩ := htreads.content
  have hmarked : p ∈ r.session.completed ↔ m.chart.Ended (m.footing move.before) p := by
    rw [hbefore.1]
    exact h.marked
  obtain ⟨hentered, htold⟩ :=
    ended_runContent hw hp h.footed.legal htreads.cuts htreads.opens hmarked
  rw [← hafter.1, Chart.ended_congr htreads.final] at hentered
  refine ⟨⟨hfooted, hentered⟩, ?_⟩
  rw [told_of_sameMarks hafter, htold, told_of_sameMarks hbefore]

theorem Passes.ends (hp : m.chart.kind p = .compound) {r t : Run σ} {stages : List (Stage σ)}
    (h : m.Passes r stages t) (hr : m.Ends p r) :
    (∀ move, .moved move ∈ stages → m.Ends p move.before) ∧ m.Ends p t ∧
      m.told p t = m.told p r + m.chart.countFinals p (stages.flatMap Stage.entered) := by
  obtain ⟨hmoves, ht⟩ := h.holds Ends.alike (ends_reset p)
    (fun hmakes hbefore => (hbefore.moved hw hcheck hfatal hp hmakes).1) hr
  refine ⟨hmoves, ht, ?_⟩
  rw [Chart.countFinals, List.countP_flatMap]
  refine h.told_eq _ rfl fun move hmove => ?_
  exact ((hmoves move hmove).moved hw hcheck hfatal hp (h.makes hmove)).2

end Moves

/-- Between any two steps of operations that succeed under the strict policy, a compound state is
marked exactly if a final child of it is active; it is told once for each final child that a move
enters, and at no other time. A move that enters a final state at the top level tells of no
state. -/
theorem compound_completed {o : Outline} (hbuild : o.build = .ok m.chart)
    (hcheck : m.config.checkLegality = true) (hfatal : m.config.legality = .fatal)
    {id : SessionId} {world : σ} {operations : List Operation}
    (hsucceed : m.Succeed operations (Run.new id world)) :
    let stages := m.course operations (Run.new id world)
    let last := m.operateAll operations (Run.new id world)
    (∀ move, .moved move ∈ stages →
      (∀ p, m.chart.kind p = .compound → m.MarkedEnded p move.before ∧
        m.MarkedEnded p move.after ∧ m.told p move.after =
          m.told p move.before + m.chart.countFinals p move.step.entryList) ∧
      ∀ f ∈ move.step.entryList, m.chart.kind f = .final → m.chart.parent f = none →
        Untold move.before move.after) ∧
    ∀ p, m.chart.kind p = .compound → m.MarkedEnded p last ∧
      m.told p last = m.chart.countFinals p (stages.flatMap Stage.entered) := by
  intro stages last
  obtain ⟨hw, -⟩ := Outline.wellFormed_of_build hbuild
  have hpasses : m.Passes (Run.new id world) stages last := passes_course hsucceed
  have hends : ∀ p, m.chart.kind p = .compound → _ := fun p hp =>
    hpasses.ends hw hcheck hfatal hp (ends_new p id world)
  have hfooted : ∀ move, .moved move ∈ stages → m.Footed move.before :=
    (hpasses.holds Footed.alike footed_reset
      (fun hmakes hbefore => (hbefore.moved hw hcheck hfatal hmakes).1)
      (footed_new id world)).1
  refine ⟨fun move hmove => ⟨fun p hp => ?_, fun f hf hk htop => ?_⟩, fun p hp => ?_⟩
  · have hbefore := (hends p hp).1 move hmove
    obtain ⟨hafter, htold⟩ := hbefore.moved hw hcheck hfatal hp (hpasses.makes hmove)
    exact ⟨hbefore.markedEnded hw, hafter.markedEnded hw, htold⟩
  · obtain ⟨hafter, htreads⟩ :=
      (hfooted move hmove).moved hw hcheck hfatal (hpasses.makes hmove)
    exact htreads.untold hw hafter hf hk htop
  · obtain ⟨-, hlast, htold⟩ := hends p hp
    exact ⟨hlast.markedEnded hw, htold.trans (Nat.zero_add _)⟩

end Interpreter

/-- A walk, and home after it. -/
def Outline.outing : Outline where
  name := none
  datamodel := none
  initial := []
  states := [
    .mk (.named "walk" .plain [] [.on "done.state.walk" "home"]) [
      .mk (.named "out" .plain [] [.on "turn" "back"]) [],
      .mk (.named "back" .final [] []) []],
    .mk (.named "home" .final [] []) []]
  data := []

theorem Outline.build_outing : Outline.outing.build = .ok Outline.outing.chart :=
  build_eq_ok rfl (by decide +kernel) (by decide +kernel)

namespace Interpreter

/-- The walk begins, and the way back is taken. -/
def turning : List Operation :=
  [.go, .trigger (.signal "turn")]

theorem succeed_outing : (strict .outing).Succeed turning newRun := by
  apply succeed_of_plain Outline.build_outing
  · exact ⟨by decide +kernel, by decide +kernel, by decide +kernel⟩
  · unfold Chart.DefaultsCompatible
    decide +kernel

/-- In the end the walk was told of once and is not marked any more, and nothing was told when home
was entered. -/
theorem compound_completed_outing :
    let last := (strict .outing).operateAll turning newRun
    (strict .outing).told 0 last = 1 ∧
      ¬ (strict .outing).chart.Ended last.session.configuration.active 0 ∧
      ∃ move, .moved move ∈ (strict .outing).course turning newRun ∧
        4 ∈ move.step.entryList ∧ Untold move.before move.after := by
  obtain ⟨hmoves, hlast⟩ := compound_completed (m := strict .outing) Outline.build_outing rfl rfl
    succeed_outing
  obtain ⟨hmarked, htold⟩ := hlast 0 (by decide)
  have hentered : ((strict .outing).course turning newRun).flatMap Stage.entered =
      [0, 1, 2, 4] := by decide +kernel
  have hmark : 0 ∉ ((strict .outing).operateAll turning
      newRun).session.completed := by decide +kernel
  refine ⟨htold.trans ?_, fun hended => hmark (hmarked.2 hended), ?_⟩
  · exact (congrArg ((strict .outing).chart.countFinals 0) hentered).trans (by decide)
  · have hhome : 4 ∈ ((strict .outing).course turning newRun).flatMap
        Stage.entered := by simp [hentered]
    obtain ⟨stage, hstage, hmem⟩ := List.mem_flatMap.1 hhome
    cases stage with
    | cleared => cases hmem
    | moved move =>
      exact ⟨move, hstage, hmem, (hmoves move hstage).2 4 hmem (by decide) (by decide)⟩

end Interpreter

end Statechart
