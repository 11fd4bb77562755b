import Statechart.Proofs.Footing

/-!
Parallel states complete. Between any two steps under the strict policy a parallel state whose
regions are not parallel is marked exactly if it is active with all its regions complete, and the
event that it is done is raised in exactly the steps that make it so. Around a parallel state with
a parallel region this fails: the completion of that region is not passed on.
-/

namespace Statechart

theorem sum_map_ite {α : Type} (p : α → Prop) [DecidablePred p] (xs : List α) :
    (xs.map fun x => if p x then 1 else 0).sum = xs.countP fun x => decide (p x) := by
  induction xs with
  | nil => rfl
  | cons x rest ih =>
    simp only [List.map_cons, List.sum_cons, List.countP_cons, decide_eq_true_eq, ih, Nat.add_comm]

namespace Chart

/-- The state `p` is active, and all its regions are complete. -/
def Finished (c : Chart) (active : StateSet) (p : Nat) : Prop :=
  p ∈ active ∧ ∀ x ∈ c.children p, c.Complete active x

variable {c : Chart} {p : Nat}

/-- To be complete and active, a parallel state needs those active states only that have states
without children inside them. -/
theorem finished_iff (hw : c.WellFormed) (hp : c.kind p = .parallel) {active base : StateSet}
    (hsub : ∀ x ∈ base, x ∈ active) (hfinal : ∀ f ∈ active, c.kind f = .final → f ∈ base)
    (hrooted : c.Rooted base) : c.Finished active p ↔ c.Complete base p := by
  have hsame : c.Complete active p ↔ c.Complete base p :=
    complete_congr (fun f hk => ⟨fun hf => hfinal f hf hk, hsub f⟩) p
  rw [Finished, ← complete_parallel hp, hsame]
  refine and_iff_right_of_imp ?_
  intro hcomplete
  obtain ⟨f, hf, hfp⟩ := hcomplete.exists_mem hw
  exact hsub p (hw.mem_of_rooted hrooted hf hfp)

/-- Where nothing is active nothing is to be marked. -/
theorem tallied_empty (hw : c.WellFormed) (p : Nat) : c.Tallied p ∅ ∅ := by
  intro x _
  refine iff_of_false (StateSet.not_mem_empty x) ?_
  intro hcomplete
  obtain ⟨f, hf, -⟩ := hcomplete.exists_mem hw
  exact StateSet.not_mem_empty f hf

end Chart

namespace Interpreter

variable {σ : Type} (m : Interpreter σ)

/-- What holds of the marks of `p` and its regions between two steps. -/
structure Tallies (p : Nat) (r : Run σ) : Prop where
  status : ∃ pending, r.session.status = .capture m.chart r.session.configuration pending
  known : r.session.histories.Known m.chart
  legal : m.chart.Legal (m.footing r)
  active : ∀ x ∈ m.footing r, x ∈ r.session.configuration.active
  tallied : m.chart.Tallied p (m.footing r) r.session.completed

/-- The state `p` is marked exactly if it is active with all its regions complete. -/
def Marked (p : Nat) (r : Run σ) : Prop :=
  p ∈ r.session.completed ↔ m.chart.Finished r.session.configuration.active p

/-- The move makes the state `p` complete: it is not so any more when the states to leave are
left, and is so in the end. -/
def Finishes (p : Nat) (move : Move σ) : Prop :=
  ¬ m.chart.Finished
      (move.before.session.configuration.active.diff (.ofList move.step.exitList)) p ∧
    m.chart.Finished move.after.session.configuration.active p

/-- At the stage a move makes the state `p` complete. -/
def FinishesAt (p : Nat) (stage : Stage σ) : Prop :=
  ∃ move, stage = .moved move ∧ m.Finishes p move

/-- The move leaves the marks of `p` and its regions right, and tells of `p` if `p` is complete
after the move and not with what stays alone. -/
structure Tracks (p : Nat) (move : Move σ) : Prop where
  rooted : m.chart.Rooted ((m.footing move.before).diff (.ofList move.step.exitList))
  after : m.Tallies p move.after
  tells : m.Tells p
    (m.chart.Complete ((m.footing move.before).diff (.ofList move.step.exitList)) p)
    (m.chart.Complete (m.footing move.after) p) move.before move.after

variable {m} {p : Nat}

theorem not_finishesAt_cleared : ¬ m.FinishesAt p .cleared := by
  rintro ⟨move, hmove, -⟩
  cases hmove

theorem finishesAt_moved {move : Move σ} : m.FinishesAt p (.moved move) ↔ m.Finishes p move := by
  refine ⟨?_, fun hfinishes => ⟨move, rfl, hfinishes⟩⟩
  rintro ⟨move, ⟨rfl⟩, hfinishes⟩
  exact hfinishes

theorem Footed.tallies {r : Run σ} (h : m.Footed r)
    (htallied : m.chart.Tallied p (m.footing r) r.session.completed) : m.Tallies p r :=
  ⟨h.status, h.known, h.legal, h.active, htallied⟩

theorem Tallies.footed {r : Run σ} (h : m.Tallies p r) : m.Footed r :=
  ⟨h.status, h.known, h.legal, h.active⟩

theorem Tallies.finished_iff (hw : m.chart.WellFormed) (hp : m.chart.kind p = .parallel)
    {r : Run σ} (h : m.Tallies p r) : m.chart.Finished r.session.configuration.active p ↔
      m.chart.Complete (m.footing r) p :=
  Chart.finished_iff hw hp h.active (fun _ hf hk => mem_footing_of_final hw hf hk) h.legal.upward

theorem Tallies.marked (hw : m.chart.WellFormed) (hp : m.chart.kind p = .parallel) {r : Run σ}
    (h : m.Tallies p r) : m.Marked p r :=
  (h.tallied p (.inl rfl)).trans (h.finished_iff hw hp).symm

theorem Tallies.alike {r s : Run σ} (h : m.Tallies p r) (halike : Alike r s) : m.Tallies p s := by
  apply (h.footed.alike halike).tallies
  rw [halike.footing, halike.completed]
  exact h.tallied

theorem tallies_new (hw : m.chart.WellFormed) (p : Nat) (id : SessionId) (world : σ) :
    m.Tallies p (Run.new id world) :=
  (footed_new id world).tallies (Chart.tallied_empty hw p)

theorem tallies_reset (hw : m.chart.WellFormed) (p : Nat) (r : Run σ) :
    m.Tallies p (m.reset r) := by
  obtain ⟨hconf, -, hcompleted⟩ := m.cleared_reset r
  apply (footed_reset r).tallies
  rw [footing_of_empty hconf, hcompleted]
  exact Chart.tallied_empty hw p

section Moves

variable (hw : m.chart.WellFormed) (hp : m.chart.kind p = .parallel)

include hw hp

theorem Tracks.finishes_iff {move : Move σ} (h : m.Tracks p move)
    (hbefore : m.Tallies p move.before) : m.Finishes p move ↔
      ¬ m.chart.Complete ((m.footing move.before).diff (.ofList move.step.exitList)) p ∧
        m.chart.Complete (m.footing move.after) p := by
  have hwas : m.chart.Finished
      (move.before.session.configuration.active.diff (.ofList move.step.exitList)) p ↔
        m.chart.Complete ((m.footing move.before).diff (.ofList move.step.exitList)) p := by
    apply Chart.finished_iff hw hp ?_ ?_ h.rooted
    · intro x hx
      obtain ⟨hx, hxe⟩ := StateSet.mem_diff.1 hx
      exact StateSet.mem_diff.2 ⟨hbefore.active x hx, hxe⟩
    · intro f hf hk
      obtain ⟨hf, hfe⟩ := StateSet.mem_diff.1 hf
      exact StateSet.mem_diff.2 ⟨mem_footing_of_final hw hf hk, hfe⟩
  rw [Finishes, hwas, h.after.finished_iff hw hp]

open Classical in
theorem Tracks.told_eq {move : Move σ} (h : m.Tracks p move) (hbefore : m.Tallies p move.before) :
    m.told p move.after = m.told p move.before + if m.Finishes p move then 1 else 0 := by
  have hfinishes := h.finishes_iff hw hp hbefore
  split
  · next hmove =>
    obtain ⟨hwas, his⟩ := hfinishes.1 hmove
    exact h.tells.raised hwas his
  · next hmove =>
    refine h.tells.silent ?_
    by_contra hnot
    rw [not_or, not_not] at hnot
    exact hmove (hfinishes.2 hnot)

variable (hregions : ∀ x ∈ m.chart.children p, m.chart.kind x ≠ .parallel)
  (hcheck : m.config.checkLegality = true) (hfatal : m.config.legality = .fatal)

include hregions hcheck hfatal

/-- Every move keeps track of the marks. -/
theorem Tallies.moved {move : Move σ} (h : m.Tallies p move.before) (hmakes : m.Makes move) :
    m.Tracks p move := by
  obtain ⟨hfooted, htreads⟩ := h.footed.moved hw hcheck hfatal hmakes
  obtain ⟨r, hbefore, hafter⟩ := htreads.content
  have htallied : m.chart.Tallied p (m.footing move.before) r.session.completed := by
    rw [hbefore.1]
    exact h.tallied
  obtain ⟨hentered, htells⟩ :=
    tallied_runContent hw hp hregions h.legal htreads.cuts htreads.opens htallied
  have hcompleted := hentered.congr htreads.final
  rw [← hafter.1] at hcompleted
  rw [Chart.complete_congr htreads.final] at htells
  exact ⟨htreads.cuts.rooted hw h.legal, hfooted.tallies hcompleted,
    htells.congr (told_of_sameMarks hbefore p) (told_of_sameMarks hafter p)⟩

open Classical in
/-- Along a course the marks are right before and after each move, and it is told once for each
move that makes the state complete. -/
theorem Passes.tallies {r t : Run σ} {stages : List (Stage σ)} (h : m.Passes r stages t)
    (hr : m.Tallies p r) :
    (∀ move, .moved move ∈ stages → m.Tallies p move.before ∧ m.Tracks p move) ∧
      m.Tallies p t ∧
      m.told p t = m.told p r + stages.countP (fun stage => decide (m.FinishesAt p stage)) := by
  obtain ⟨hmoves, ht⟩ := h.holds Tallies.alike (tallies_reset hw p)
    (fun hmakes hbefore => (hbefore.moved hw hp hregions hcheck hfatal hmakes).after) hr
  have htracks : ∀ move, .moved move ∈ stages → m.Tallies p move.before ∧ m.Tracks p move :=
    fun move hmove => ⟨hmoves move hmove,
      (hmoves move hmove).moved hw hp hregions hcheck hfatal (h.makes hmove)⟩
  refine ⟨htracks, ht, ?_⟩
  rw [← sum_map_ite]
  refine h.told_eq _ (if_neg not_finishesAt_cleared) fun move hmove => ?_
  obtain ⟨hbefore, hmoved⟩ := htracks move hmove
  simp only [hmoved.told_eq hw hp hbefore, finishesAt_moved]

end Moves

open Classical in
/-- Between any two steps of operations that succeed under the strict policy, a parallel state
without a parallel region is marked exactly if it is active with all its regions complete; and it
is told once for each move that makes it so, and at no other time. -/
theorem parallel_completed {o : Outline} (hbuild : o.build = .ok m.chart)
    (hcheck : m.config.checkLegality = true) (hfatal : m.config.legality = .fatal)
    {id : SessionId} {world : σ} {operations : List Operation}
    (hsucceed : m.Succeed operations (Run.new id world)) (hp : m.chart.kind p = .parallel)
    (hregions : ∀ x ∈ m.chart.children p, m.chart.kind x ≠ .parallel) :
    let stages := m.course operations (Run.new id world)
    let last := m.operateAll operations (Run.new id world)
    (∀ move, .moved move ∈ stages → m.Marked p move.before ∧ m.Marked p move.after ∧
        m.told p move.after = m.told p move.before + if m.Finishes p move then 1 else 0) ∧
      m.Marked p last ∧
      m.told p last = stages.countP (fun stage => decide (m.FinishesAt p stage)) := by
  intro stages last
  obtain ⟨hw, -⟩ := Outline.wellFormed_of_build hbuild
  obtain ⟨hmoves, hlast, htold⟩ := (passes_course hsucceed).tallies hw hp hregions hcheck hfatal
    (tallies_new hw p id world)
  refine ⟨?_, hlast.marked hw hp, ?_⟩
  · intro move hmove
    obtain ⟨hbefore, htracks⟩ := hmoves move hmove
    exact ⟨hbefore.marked hw hp, htracks.after.marked hw hp, htracks.told_eq hw hp hbefore⟩
  · exact htold.trans (Nat.zero_add _)

theorem succeed_of_plain {o : Outline} (hbuild : o.build = .ok m.chart) (hp : m.chart.Plain)
    (hd : m.chart.DefaultsCompatible) (id : SessionId) (world : σ) (operations : List Operation) :
    m.Succeed operations (Run.new id world) := by
  obtain ⟨hw, hc⟩ := Outline.wellFormed_of_build hbuild
  exact (invariant_steady hw hc hp (hd.joined hw) _).succeed operations
    (m.regular_new id world).steady

end Interpreter

/-- One state after the other, the second of them final. -/
def StateOutline.errand (id before event after : String) : StateOutline :=
  .mk (.named id .plain [] []) [
    .mk (.named before .plain [] [.on event after]) [],
    .mk (.named after .final [] []) []]

def Outline.trip : Outline where
  name := none
  datamodel := none
  initial := []
  states := [
    .mk (.named "trip" .parallel [] []) [
      .errand "luggage" "open" "pack" "packed",
      .errand "ticket" "none" "buy" "bought"]]
  data := []

/-- The same with a parallel state around the luggage. -/
def Outline.journey : Outline where
  name := none
  datamodel := none
  initial := []
  states := [
    .mk (.named "journey" .parallel [] []) [
      .mk (.named "load" .parallel [] []) [.errand "luggage" "open" "pack" "packed"],
      .errand "ticket" "none" "buy" "bought"]]
  data := []

theorem Outline.build_trip : Outline.trip.build = .ok Outline.trip.chart :=
  build_eq_ok rfl (by decide +kernel) (by decide +kernel)

theorem Outline.build_journey : Outline.journey.build = .ok Outline.journey.chart :=
  build_eq_ok rfl (by decide +kernel) (by decide +kernel)

namespace Interpreter

/-- Takes the outline under the strict policy. -/
def strict (o : Outline) : Interpreter Unit :=
  ⟨o.chart, .minimal, .silent, ⟨1000, .fatal, true⟩⟩

/-- A ticket is bought, and then the luggage is packed. -/
def preparations : List Operation :=
  [.go, .trigger (.signal "buy"), .trigger (.signal "pack")]

def newRun : Run Unit :=
  .new secondId ()

theorem succeed_trip : (strict .trip).Succeed preparations newRun := by
  apply succeed_of_plain Outline.build_trip
  · exact ⟨by decide +kernel, by decide +kernel, by decide +kernel⟩
  · unfold Chart.DefaultsCompatible
    decide +kernel

theorem succeed_journey : (strict .journey).Succeed preparations newRun := by
  apply succeed_of_plain Outline.build_journey
  · exact ⟨by decide +kernel, by decide +kernel, by decide +kernel⟩
  · unfold Chart.DefaultsCompatible
    decide +kernel

open Classical in
/-- In the end the trip is complete, and one move made it so. -/
theorem parallel_completed_trip :
    (strict .trip).chart.Finished
      ((strict .trip).operateAll preparations newRun).session.configuration.active 0 ∧
    ((strict .trip).course preparations newRun).countP
      (fun stage => decide ((strict .trip).FinishesAt 0 stage)) = 1 := by
  obtain ⟨-, hmarked, htold⟩ := parallel_completed (m := strict .trip) Outline.build_trip rfl rfl
    succeed_trip (by decide : (strict .trip).chart.kind 0 = .parallel) (by decide)
  have hmark : 0 ∈ ((strict .trip).operateAll preparations
      newRun).session.completed := by decide +kernel
  have honce : (strict .trip).told 0
      ((strict .trip).operateAll preparations newRun) = 1 := by decide +kernel
  exact ⟨hmarked.1 hmark, htold.symm.trans honce⟩

theorem complete_journey {active : StateSet} (hpacked : 4 ∈ active) (hbought : 8 ∈ active) :
    ∀ x ∈ (strict .journey).chart.children 0, (strict .journey).chart.Complete active x := by
  have hluggage : (strict .journey).chart.Complete active 2 :=
    .compound (by decide) (by decide : (strict .journey).chart.kind 4 = .final) (by decide) hpacked
  have hticket : (strict .journey).chart.Complete active 6 :=
    .compound (by decide) (by decide : (strict .journey).chart.kind 8 = .final) (by decide) hbought
  have hload : (strict .journey).chart.Complete active 1 := by
    have hparallel : (strict .journey).chart.kind 1 = .parallel := by decide
    apply Chart.Complete.parallel hparallel
    rw [show (strict .journey).chart.children 1 = [2] by decide]
    simpa using hluggage
  rw [show (strict .journey).chart.children 0 = [1, 6] by decide]
  simpa using And.intro hload hticket

/-- The journey is not marked when its load, the last of its regions, is complete. -/
theorem exists_not_marked : ¬ ∀ (o : Outline) (m : Interpreter Unit), o.build = .ok m.chart →
    m.config.checkLegality = true → m.config.legality = .fatal →
    ∀ (id : SessionId) (operations : List Operation),
      (∀ operation ∈ operations, operation = .go ∨ ∃ event, operation = .trigger event) →
      m.Succeed operations (Run.new id ()) →
      ∀ p, m.chart.kind p = .parallel → m.Marked p (m.operateAll operations (Run.new id ())) := by
  intro h
  have hallowed : ∀ operation ∈ preparations,
      operation = .go ∨ ∃ event, operation = .trigger event := by simp [preparations]
  have hmarked := h .journey (strict .journey) Outline.build_journey rfl rfl _ preparations hallowed
    succeed_journey 0 (by decide)
  rw [Marked, Chart.Finished] at hmarked
  have hactive : ∀ s ∈ [0, 4, 8], s ∈ ((strict .journey).operateAll preparations
      newRun).session.configuration.active := by decide +kernel
  have hmark : 0 ∉ ((strict .journey).operateAll preparations
      newRun).session.completed := by decide +kernel
  apply hmark (hmarked.2 ⟨hactive 0 (by simp), ?_⟩)
  exact complete_journey (hactive 4 (by simp)) (hactive 8 (by simp))

end Interpreter

end Statechart
