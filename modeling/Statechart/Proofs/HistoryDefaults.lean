import Statechart.Proofs.Chart.Forest
import Statechart.Proofs.Completing
import Statechart.Proofs.Ordering

/-!
The content of history defaults. A history that remembers nothing leads to its default, and the
content of the default runs for the state of the history: once, after that state is entered and
before anything inside it is. But it runs only with the entry of that state. When the state stays
active the default is taken all the same, and its content is left out.
-/

namespace Statechart

namespace Chart

/-- The block of the default of the history `h` of `p` is run once, after the block of `p` and
before those of the states inside `p`. -/
structure RunsDefault (c : Chart) (step : Step) (h p : Nat) (blocks : List Block) : Prop where
  once : blocks.count (.history h) = 1
  after_state : [.entry p, .history h].Sublist blocks
  before_inside : ∀ x ∈ step.entryList, c.Below x p → [.history h, .entry x].Sublist blocks

variable {c : Chart}

theorem mem_defaultBlocks_history {step : Step} {s h : Nat} :
    .history h ∈ c.defaultBlocks step s ↔
      h ∈ (c.node s).histories ∧ (step.historyDefaults.get? h).isSome := by
  unfold defaultBlocks
  rw [List.mem_append, List.mem_map]
  constructor
  · rintro (hinitial | ⟨x, hx, heq⟩)
    · split at hinitial
      · cases List.mem_singleton.1 hinitial
      · cases hinitial
    · obtain rfl := Block.history.inj heq
      exact List.mem_filter.1 hx
  · exact fun hmem => .inr ⟨h, List.mem_filter.2 hmem, rfl⟩

theorem nodup_defaultBlocks {step : Step} {s : Nat} (hnodup : (c.node s).histories.Nodup) :
    (c.defaultBlocks step s).Nodup := by
  have hinj : Function.Injective Block.history := fun _ _ h => Block.history.inj h
  unfold defaultBlocks
  rw [List.nodup_append]
  refine ⟨?_, (hnodup.sublist List.filter_sublist).map hinj, ?_⟩
  · split
    · exact List.nodup_singleton _
    · exact .nil
  · intro b hb b' hb'
    obtain ⟨h, -, rfl⟩ := List.mem_map.1 hb'
    split at hb
    · rw [List.mem_singleton.1 hb]
      exact nofun
    · cases hb

section History

variable (hw : c.WellFormed) {step : Step} {h p t : Nat} (hp : c.parent h = some p)

include hw hp

/-- The default of a history belongs to the entry of no other state. -/
theorem history_not_mem_entryBlocks {entries : List Nat} (hentries : p ∉ entries) :
    .history h ∉ entries.flatMap (fun s => .entry s :: c.defaultBlocks step s) := by
  intro hmem
  obtain ⟨s, hs, hmem⟩ := List.mem_flatMap.1 hmem
  have hblock : .history h ∈ c.defaultBlocks step s := by simpa using hmem
  have hparent := (hw.mem_histories.1 (mem_defaultBlocks_history.1 hblock).1).1
  obtain rfl : p = s := Option.some.inj (hp.symm.trans hparent)
  exact hentries hs

/-- Without the entry of its state the content of a default is left out. -/
theorem history_not_mem_blocks (hentries : p ∉ step.entryList) :
    .history h ∉ c.blocks step := by
  intro hmem
  rcases List.mem_append.1 hmem with hmem | hmem
  · simp at hmem
  · exact history_not_mem_entryBlocks hw hp hentries hmem

/-- With the entry of its state the content of a default that is taken runs once, in its place. -/
theorem runsDefault_of_entered (hh : c.IsHistory h) (hhistories : (c.node p).histories.Nodup)
    (hdepth : step.entryList.Pairwise fun a b => (c.node a).depth ≤ (c.node b).depth)
    (hnodup : step.entryList.Nodup) (ht : step.historyDefaults.get? h = some t)
    (hentered : p ∈ step.entryList) : c.RunsDefault step h p (c.blocks step) := by
  obtain ⟨earlier, later, hsplit⟩ := List.append_of_mem hentered
  rw [hsplit] at hdepth hnodup
  have hblock : .history h ∈ c.defaultBlocks step p :=
    mem_defaultBlocks_history.2 ⟨hw.mem_histories.2 ⟨hp, hh⟩, by simp [ht]⟩
  have hearlier : p ∉ earlier := fun hmem =>
    (List.nodup_append.1 hnodup).2.2 p hmem p (by simp) rfl
  have hlater : p ∉ later := (List.nodup_cons.1 (List.nodup_append.1 hnodup).2.1).1
  -- The blocks before the entry of the state, those of the entry, and those after it.
  have hblocks : c.blocks step =
      (step.exitList.map .exit ++ step.transitions.map .transition ++
        earlier.flatMap (fun s => .entry s :: c.defaultBlocks step s)) ++
      (.entry p :: c.defaultBlocks step p) ++
      later.flatMap (fun s => .entry s :: c.defaultBlocks step s) := by
    unfold blocks
    rw [hsplit]
    simp
  have hinside : (Block.entry p :: c.defaultBlocks step p).Sublist (c.blocks step) := by
    rw [hblocks]
    exact (List.sublist_append_right _ _).trans (List.sublist_append_left _ _)
  constructor
  case once =>
    have hnone : .history h ∉ step.exitList.map .exit ++ step.transitions.map .transition ++
        earlier.flatMap (fun s => .entry s :: c.defaultBlocks step s) := by
      intro hmem
      rcases List.mem_append.1 hmem with hmem | hmem
      · simp at hmem
      · exact history_not_mem_entryBlocks hw hp hearlier hmem
    rw [hblocks, List.count_append, List.count_append, List.count_eq_zero_of_not_mem hnone,
      List.count_eq_zero_of_not_mem (history_not_mem_entryBlocks hw hp hlater),
      List.count_cons_of_ne (by simp),
      List.count_eq_one_of_mem (nodup_defaultBlocks hhistories) hblock]
  case after_state =>
    exact ((List.singleton_sublist.2 hblock).cons_cons (Block.entry p)).trans hinside
  case before_inside =>
    intro x hx hbelow
    have hxlater : x ∈ later := by
      rw [hsplit] at hx
      have hlt := hw.depth_lt_of_below hbelow
      rcases List.mem_append.1 hx with hx | hx
      · have hle := (List.pairwise_append.1 hdepth).2.2 x hx p (by simp)
        omega
      · exact (List.mem_cons.1 hx).resolve_left (fun heq => by subst heq; omega)
    have hentry : .entry x ∈ later.flatMap (fun s => .entry s :: c.defaultBlocks step s) :=
      List.mem_flatMap.2 ⟨x, hxlater, by simp⟩
    have hhistory : [.history h].Sublist (.entry p :: c.defaultBlocks step p) :=
      List.singleton_sublist.2 (List.mem_cons_of_mem _ hblock)
    rw [hblocks]
    exact (hhistory.trans (List.sublist_append_right _ _)).append
      (List.singleton_sublist.2 hentry)

end History

end Chart

namespace Interpreter

variable {σ : Type} {m : Interpreter σ}

/-- A default that a microstep takes is that of a history that remembers nothing, and leads below
the state of the history. If that state is entered, the content of the default runs once, after the
block of the state and before the blocks of the states inside it. If it stays active, the content is
left out. -/
theorem history_default_runs {o : Outline} (hbuild : o.build = .ok m.chart) {move : Move σ}
    (hmove : m.Makes move) {h t : Nat} (htaken : move.step.historyDefaults.get? h = some t) :
    ∃ p blocks entries, m.chart.parent h = some p ∧
      ((move.before.session.histories.get? h).filter (fun states => !states.isEmpty) = none ∧
        (m.chart.node h).transitions.head? = some t ∧
        ∀ x ∈ (m.chart.transition t).targets, m.chart.Below x p) ∧
      m.Plays blocks move.before move.after ∧
      move.after.journal = entries ++ move.before.journal ∧ blocksIn entries = blocks ∧
      (p ∈ move.step.entryList → m.chart.RunsDefault move.step h p blocks) ∧
      (p ∉ move.step.entryList → blocks.count (.history h) = 0) := by
  obtain ⟨hw, hc⟩ := Outline.wellFormed_of_build hbuild
  have henacts := hmove.enacts hw
  have hplays := hmove.plays hw
  obtain ⟨entries, hjournal, hblocks⟩ := hplays.journal
  obtain ⟨⟨depth, hkind⟩, hhead, hnone⟩ := henacts.defaults h t htaken
  obtain ⟨p, hp⟩ := hw.pseudo_parent (Chart.IsHistory.isPseudo ⟨depth, hkind⟩)
  obtain ⟨xs, hentries⟩ := henacts.entries
  refine ⟨p, _, entries, hp, ⟨hnone, hhead, ?_⟩, hplays, hjournal, hblocks, ?_, ?_⟩
  · have ht : t ∈ (m.chart.node h).transitions := List.mem_of_head? hhead
    intro x hx
    cases depth with
    | shallow => exact hw.below_parent (hc.shallow hkind hp ht x hx)
    | deep => exact hc.deep hkind hp ht x hx
  · intro hentered
    have hhistories : (m.chart.node p).histories.Nodup := by
      obtain ⟨-, hchart, -⟩ := Outline.resolved_of_build hbuild
      rw [hchart]
      exact (o.histories_ascending p).imp Nat.ne_of_lt
    refine Chart.runsDefault_of_entered hw hp ⟨depth, hkind⟩ hhistories ?_ ?_ htaken hentered
    · rw [hentries]
      exact m.chart.entryOrder_depth _
    · rw [hentries]
      exact m.chart.nodup_entryOrder xs
  · exact fun hstays => List.count_eq_zero_of_not_mem (Chart.history_not_mem_blocks hw hp hstays)

end Interpreter

/-- A history whose default logs a line. It can be reached from outside its state and from
inside. -/
def Outline.nook : Outline where
  name := none
  datamodel := none
  initial := ["C"]
  states := [
    .mk (.named "C" .plain [] [.on "back" "H", .on "in" "B1"]) [],
    .mk (.named "B" .plain
      [⟨some "H", .shallow, some ⟨["B2"], [.log (some "default taken") none]⟩⟩] []) [
      .mk (.named "B1" .plain [] [.on "go" "H"]) [],
      .mk (.named "B2" .plain [] []) []]]
  data := []

theorem Outline.build_nook : Outline.nook.build = .ok Outline.nook.chart :=
  build_eq_ok rfl (by decide +kernel) (by decide +kernel)

namespace Interpreter

/-- From outside, the state with the number 1 is entered, and the default of its history runs. -/
theorem history_default_runs_nook : ∃ (move : Move Unit) (blocks : List Block),
    move.before = (strict .nook).operateAll [.go] newRun ∧
      (strict .nook).Plays blocks move.before move.after ∧
      (strict .nook).chart.RunsDefault move.step 5 1 blocks := by
  obtain ⟨move, hmove, hbefore, -, htaken⟩ := (strict .nook).exists_makes (.signal "back")
    ((strict .nook).operateAll [.go] newRun)
    (fun step => decide (step.historyDefaults.get? 5 = some 4 ∧ 1 ∈ step.entryList))
    (by decide +kernel)
  obtain ⟨hget, hentered⟩ := of_decide_eq_true htaken
  obtain ⟨p, blocks, -, hp, -, hplays, -, -, hruns, -⟩ :=
    history_default_runs (m := strict .nook) Outline.build_nook hmove hget
  have hparent : (strict .nook).chart.parent 5 = some 1 := by decide +kernel
  obtain rfl : 1 = p := Option.some.inj (hparent.symm.trans hp)
  exact ⟨move, blocks, hbefore, hplays, hruns hentered⟩

/-- From inside, the default is taken too, but the line is not logged. -/
theorem exists_default_skipped : ∃ (move : Move Unit) (h t : Nat),
    move.before = (strict .nook).operateAll [.go, .trigger (.signal "in")] newRun ∧
      (strict .nook).Makes move ∧ move.step.historyDefaults.get? h = some t ∧
      ((strict .nook).chart.transition t).actions = [.log (some "default taken") none] ∧
      ∀ entries, move.after.journal = entries ++ move.before.journal →
        .history h ∉ blocksIn entries := by
  obtain ⟨move, hmove, hbefore, hstep, htaken⟩ := (strict .nook).exists_makes (.signal "go")
    ((strict .nook).operateAll [.go, .trigger (.signal "in")] newRun)
    (fun step => decide (step.historyDefaults.get? 5 = some 4)) (by decide +kernel)
  have hnone : .history 5 ∉ blocksIn ((strict .nook).microstep (some (.signal "go"))
      ((strict .nook).operateAll [.go, .trigger (.signal "in")]
        newRun)).2.journal := by
    decide +kernel
  refine ⟨move, 5, 4, hbefore, hmove, of_decide_eq_true htaken, by rfl, ?_⟩
  intro entries hjournal hmem
  rw [hstep, hjournal, blocksIn_append] at hnone
  exact hnone (List.mem_append_right _ hmem)

end Interpreter

end Statechart
