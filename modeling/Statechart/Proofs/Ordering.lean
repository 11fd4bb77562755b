import Mathlib.Data.List.Count
import Statechart.Proofs.Blocks

/-!
The order of content. States are left from the inside to the outside, then the transitions run in
the order in which they were selected, and states are entered from the outside to the inside. Every
state left, every transition and every state entered has its block run once. A state that stays
active has none.
-/

namespace Statechart

/-- Of two members of an ordered list, one that may not come second comes first. -/
theorem sublist_of_pairwise {α : Type} {R : α → α → Prop} {xs : List α} (h : xs.Pairwise R)
    {x y : α} (hx : x ∈ xs) (hy : y ∈ xs) (hne : x ≠ y) (hnot : ¬ R y x) : [x, y].Sublist xs := by
  induction h with
  | nil => cases hx
  | @cons z rest hz _ ih =>
    rcases List.mem_cons.1 hx with rfl | hxrest
    · have hyrest : y ∈ rest := (List.mem_cons.1 hy).resolve_left hne.symm
      exact (List.singleton_sublist.2 hyrest).cons_cons x
    · rcases List.mem_cons.1 hy with rfl | hyrest
      · exact absurd (hz x hxrest) hnot
      · exact (ih hxrest hyrest).cons z

namespace Configuration

variable {c : Chart} {conf conf' : Configuration}

/-- Only active states can be left. -/
theorem mem_of_changeAll_exit {exits : List Nat}
    (h : changeAll (fun conf s => conf.exit c s) conf exits = (none, conf')) :
    ∀ x ∈ exits, x ∈ conf.active := by
  induction exits generalizing conf with
  | nil => exact fun x hx => absurd hx List.not_mem_nil
  | cons s rest ih =>
    obtain ⟨next, hnext, hrest⟩ := changeAll_cons h
    rw [exit] at hnext
    split at hnext
    · next hs =>
      obtain rfl := Except.ok.inj hnext
      intro x hx
      rcases List.mem_cons.1 hx with rfl | hx
      · exact hs
      · exact (StateSet.mem_erase.1 (ih hrest x hx)).1
    · cases hnext

/-- Only states that are not active can be entered. -/
theorem not_mem_of_changeAll_enter {entries : List Nat}
    (h : changeAll (fun conf s => conf.enter c s) conf entries = (none, conf')) :
    ∀ x ∈ entries, x ∉ conf.active := by
  induction entries generalizing conf with
  | nil => exact fun x hx => absurd hx List.not_mem_nil
  | cons s rest ih =>
    obtain ⟨next, hnext, hrest⟩ := changeAll_cons h
    rw [enter] at hnext
    split at hnext
    · cases hnext
    · split at hnext
      · cases hnext
      · next hs =>
        obtain rfl := Except.ok.inj hnext
        intro x hx
        rcases List.mem_cons.1 hx with rfl | hx
        · exact hs
        · exact fun hactive => ih hrest x hx (StateSet.mem_insert.2 (.inr hactive))

/-- What a change that succeeds leaves was active, and what it enters was not, or is left first. -/
theorem changes_of_move {exits entries : List Nat}
    (h : conf.move c exits entries = (none, conf')) :
    (∀ x ∈ exits, x ∈ conf.active) ∧ ∀ x ∈ entries, x ∈ conf.active → x ∈ exits := by
  rw [move] at h
  split at h
  · next left hleft =>
    refine ⟨mem_of_changeAll_exit hleft, fun x hx hactive => ?_⟩
    by_contra hstays
    exact not_mem_of_changeAll_enter h x hx ((mem_changeAll_exit hleft).2 ⟨hactive, hstays⟩)
  · next failed => exact absurd h (failed conf')

end Configuration

namespace Chart

variable {c : Chart}

/-- The blocks that are no defaults. -/
theorem filter_blocks (c : Chart) (step : Step) :
    (c.blocks step).filter (fun b => !b.isDefault) = step.exitList.map .exit ++
      step.transitions.map .transition ++ step.entryList.map .entry := by
  have hdefaults : ∀ s, (c.defaultBlocks step s).filter (fun b => !b.isDefault) = [] := by
    intro s
    rw [List.filter_eq_nil_iff]
    intro b hb
    rcases List.mem_append.1 hb with hb | hb
    · split at hb
      · obtain rfl := List.mem_singleton.1 hb
        simp [Block.isDefault]
      · cases hb
    · obtain ⟨h, -, rfl⟩ := List.mem_map.1 hb
      simp [Block.isDefault]
  unfold blocks
  rw [List.filter_append, List.filter_append, List.filter_flatMap]
  congr 1
  · congr 1
    · exact List.filter_eq_self.2 (by simp [Block.isDefault])
    · exact List.filter_eq_self.2 (by simp [Block.isDefault])
  · rw [List.map_eq_flatMap]
    refine congrArg (fun f => step.entryList.flatMap f) (funext fun s => ?_)
    rw [List.filter_cons_of_pos (by simp [Block.isDefault]), hdefaults s]

theorem count_blocks (c : Chart) (step : Step) {b : Block} (hb : b.isDefault = false) :
    (c.blocks step).count b = (step.exitList.map Block.exit ++
      step.transitions.map Block.transition ++ step.entryList.map Block.entry).count b := by
  rw [← filter_blocks, List.count_filter (by simp [hb])]

theorem count_map_of_ne {xs : List Nat} {f : Nat → Block} {b : Block} (h : ∀ x, f x ≠ b) :
    (xs.map f).count b = 0 :=
  List.count_eq_zero_of_not_mem (by simpa using fun x _ => h x)

theorem count_exit_blocks (c : Chart) (step : Step) (s : Nat) :
    (c.blocks step).count (.exit s) = step.exitList.count s := by
  have hinj : Function.Injective Block.exit := fun _ _ h => Block.exit.inj h
  rw [c.count_blocks step rfl, List.count_append, List.count_append,
    List.count_map_of_injective _ _ hinj]
  simp [count_map_of_ne]

theorem count_entry_blocks (c : Chart) (step : Step) (s : Nat) :
    (c.blocks step).count (.entry s) = step.entryList.count s := by
  have hinj : Function.Injective Block.entry := fun _ _ h => Block.entry.inj h
  rw [c.count_blocks step rfl, List.count_append, List.count_append,
    List.count_map_of_injective _ _ hinj]
  simp [count_map_of_ne]

theorem nodup_exitOrder (c : Chart) (states : StateSet) : (c.exitOrder states.members).Nodup :=
  (sortBy_perm _ _).nodup_iff.2 states.members_nodup

theorem WellFormed.depth_lt_of_below (hw : c.WellFormed) {s a : Nat} (h : c.Below s a) :
    (c.node a).depth < (c.node s).depth := by
  induction s using Nat.strong_induction_on with
  | _ s ih =>
    obtain ⟨p, hp, hpa⟩ := hw.exists_parent_of_below h
    have hdepth := hw.depth_child hp
    rcases within_iff.1 hpa with rfl | hbelow
    · omega
    · have hparent := ih p (hw.parent_lt hp) hbelow
      omega

/-- Inner states are left first. -/
theorem WellFormed.exitOrder_sublist (hw : c.WellFormed) {states : List Nat} {x y : Nat}
    (hx : x ∈ c.exitOrder states) (hy : y ∈ c.exitOrder states) (hxy : c.Below x y) :
    [x, y].Sublist (c.exitOrder states) := by
  have hdepth := hw.depth_lt_of_below hxy
  refine sublist_of_pairwise (c.exitOrder_depth states) hx hy ?_ (by omega)
  rintro rfl
  omega

/-- Outer states are entered first. -/
theorem WellFormed.entryOrder_sublist (hw : c.WellFormed) {states : List Nat} {x y : Nat}
    (hx : x ∈ c.entryOrder states) (hy : y ∈ c.entryOrder states) (hxy : c.Below x y) :
    [y, x].Sublist (c.entryOrder states) := by
  have hdepth := hw.depth_lt_of_below hxy
  refine sublist_of_pairwise (c.entryOrder_depth states) hy hx ?_ (by omega)
  rintro rfl
  omega

end Chart

/-- A step that leads from the states `before` to the states `after` runs `blocks` in the order of
the tree. -/
structure Chart.InOrder (c : Chart) (before after : StateSet) (step : Step) (blocks : List Block) :
    Prop where
  listed : blocks.filter (fun b => !b.isDefault) = step.exitList.map .exit ++
    step.transitions.map .transition ++ step.entryList.map .entry
  exits_once : step.exitList.Nodup
  exits_active : ∀ x ∈ step.exitList, x ∈ before
  exits_inward : ∀ x ∈ step.exitList, ∀ y ∈ step.exitList, c.Below x y →
    [x, y].Sublist step.exitList
  transitions_once : step.transitions.Nodup
  entries_once : step.entryList.Nodup
  entries_new : ∀ x ∈ step.entryList, x ∈ before → x ∈ step.exitList
  entries_outward : ∀ x ∈ step.entryList, ∀ y ∈ step.entryList, c.Below x y →
    [y, x].Sublist step.entryList
  active : ∀ x, x ∈ after ↔ x ∈ before ∧ x ∉ step.exitList ∨ x ∈ step.entryList
  stays : ∀ x ∈ before, x ∉ step.exitList →
    blocks.count (.exit x) = 0 ∧ blocks.count (.entry x) = 0
  returns : ∀ x ∈ step.exitList, x ∈ step.entryList →
    blocks.count (.exit x) = 1 ∧ blocks.count (.entry x) = 1

namespace Interpreter

variable {σ : Type} {m : Interpreter σ}

/-- What a move makes of its step is in order. -/
theorem Enacts.inOrder (hw : m.chart.WellFormed) {move : Move σ} (h : m.Enacts move) :
    m.chart.InOrder move.before.session.configuration.active
      move.after.session.configuration.active move.step (m.chart.blocks move.step) := by
  obtain ⟨hactive, hnew⟩ := Configuration.changes_of_move h.configuration
  obtain ⟨exits, hexits⟩ := h.exits
  obtain ⟨entries, hentries⟩ := h.entries
  have hexitsOnce : move.step.exitList.Nodup := by
    rw [hexits]
    exact m.chart.nodup_exitOrder exits
  have hentriesOnce : move.step.entryList.Nodup := by
    rw [hentries]
    exact m.chart.nodup_entryOrder entries
  constructor
  case listed => exact m.chart.filter_blocks move.step
  case exits_once => exact hexitsOnce
  case exits_active => exact hactive
  case exits_inward =>
    rw [hexits]
    exact fun x hx y hy hxy => hw.exitOrder_sublist hx hy hxy
  case transitions_once => exact (nodup_eraseDups _).sublist h.selected
  case entries_once => exact hentriesOnce
  case entries_new => exact hnew
  case entries_outward =>
    rw [hentries]
    exact fun x hx y hy hxy => hw.entryOrder_sublist hx hy hxy
  case active => exact fun x => Configuration.mem_move h.configuration
  case stays =>
    intro x hx hstays
    have hentered : x ∉ move.step.entryList := fun hentered => hstays (hnew x hentered hx)
    rw [Chart.count_exit_blocks, Chart.count_entry_blocks]
    exact ⟨List.count_eq_zero_of_not_mem hstays, List.count_eq_zero_of_not_mem hentered⟩
  case returns =>
    intro x hleft hentered
    rw [Chart.count_exit_blocks, Chart.count_entry_blocks]
    exact ⟨List.count_eq_one_of_mem hexitsOnce hleft,
      List.count_eq_one_of_mem hentriesOnce hentered⟩

/-- The content of a microstep runs in the order of the tree: the blocks of the states left, inner
states first, then those of the transitions as they were selected, then those of the states
entered, outer states first. -/
theorem content_ordered {o : Outline} (hbuild : o.build = .ok m.chart) {move : Move σ}
    (hmove : m.Makes move) :
    ∃ blocks entries, m.Plays blocks move.before move.after ∧
      move.after.journal = entries ++ move.before.journal ∧ blocksIn entries = blocks ∧
      m.chart.InOrder move.before.session.configuration.active
        move.after.session.configuration.active move.step blocks ∧
      move.step.transitions.Sublist (m.found (move.cause.event?.map Event.name)
        (move.before.mapSession (·.bindEvent move.cause.event?))) := by
  have hw := (Outline.wellFormed_of_build hbuild).1
  have henacts := hmove.enacts hw
  have hplays := hmove.plays hw
  obtain ⟨entries, hjournal, hblocks⟩ := hplays.journal
  exact ⟨_, entries, hplays, hjournal, hblocks, henacts.inOrder hw, henacts.selected⟩

/-- A microstep for an external event that ends well makes a move. -/
theorem exists_makes (m : Interpreter σ) (e : Event) (r : Run σ) (P : Step → Bool)
    (h : (m.microstep (some e) r).1.toOption.any P = true) :
    ∃ move : Move σ, m.Makes move ∧ move.before = r ∧
      m.microstep (some e) r = (.ok move.step, move.after) ∧ P move.step = true := by
  cases hstep : m.microstep (some e) r with
  | mk result after =>
    cases result with
    | error e => simp [hstep, Except.toOption] at h
    | ok step =>
      exact ⟨⟨.external e, r, step, after⟩, hstep, rfl, rfl, by
        simpa [hstep, Except.toOption] using h⟩

/-- The player plays. -/
def playingRun : Run Unit :=
  player.operateAll [.go, .trigger (.signal "play")] (Run.new secondId ())

/-- The player is turned off: the five states that are active are left from the inside to the
outside, and then the state "off" is entered. -/
theorem content_ordered_player : ∃ (move : Move Unit) (blocks : List Block),
    move.before = playingRun ∧ move.step.exitList = [6, 3, 5, 1, 0] ∧ move.step.entryList = [10] ∧
      player.Plays blocks move.before move.after ∧
      player.chart.InOrder move.before.session.configuration.active
        move.after.session.configuration.active move.step blocks := by
  obtain ⟨move, hmove, hbefore, -, hlists⟩ := player.exists_makes (.signal "power") playingRun
    (fun step => decide (step.exitList = [6, 3, 5, 1, 0] ∧ step.entryList = [10]))
    (by decide +kernel)
  obtain ⟨hexits, hentries⟩ := of_decide_eq_true hlists
  obtain ⟨blocks, -, hplays, -, -, horder, -⟩ :=
    content_ordered (m := player) Outline.build_player hmove
  exact ⟨move, blocks, hbefore, hexits, hentries, hplays, horder⟩

end Interpreter

end Statechart
