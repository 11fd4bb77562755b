import Statechart.Proofs.Chart.Build
import Statechart.Proofs.Chart.Legality

/-!
The violations of a set of states without children, one by one. The check never looks at the
closure of the set: it collects children on the walks upward and counts them. What it lists are
nevertheless the states of the closure that break their rule, each once and in document order,
and behind them several states of the top level.
-/

namespace Statechart.Chart

/-- The children of `s` that are active, in document order. -/
def activeOf (c : Chart) (active : StateSet) (s : Nat) : List Nat :=
  (c.children s).filter (fun x => decide (x ∈ active))

/-- The states of the top level that are active, in document order. -/
def activeTops (c : Chart) (active : StateSet) : List Nat :=
  active.members.filter (fun s => decide (c.parent s = none))

/-- Among the children of `s` exactly one is active. -/
def HasOneActive (c : Chart) (active : StateSet) (s : Nat) : Prop :=
  ∃! x, x ∈ c.children s ∧ x ∈ active

/-- The active children of `s` break the rule for them. -/
def Faulty (c : Chart) (active : StateSet) (s : Nat) : Prop :=
  c.kind s = .compound ∧ ¬ c.HasOneActive active s ∨
    c.kind s = .parallel ∧ ¬ ∀ x ∈ c.children s, x ∈ active

/-- The violation at `s`, by the children of `s` that are active or by their number. -/
def fault (c : Chart) (active : StateSet) (s : Nat) : Violation :=
  if c.kind s = .parallel then
    .incompleteParallel (c.idOf s) (c.activeOf active s).length (c.children s).length
  else .multipleActiveChildren (c.idOf s) (c.idsOf (c.activeOf active s))

variable {c : Chart} {active : StateSet} {s : Nat}

theorem hasOneActive_iff : c.HasOneActive active s ↔
    ∃ x ∈ c.children s, x ∈ active ∧ ∀ y ∈ c.children s, y ∈ active → y = x := by
  simp only [HasOneActive, ExistsUnique, and_imp, and_assoc]

instance (c : Chart) (active : StateSet) (s : Nat) : Decidable (c.HasOneActive active s) :=
  decidable_of_iff _ hasOneActive_iff.symm

instance (c : Chart) (active : StateSet) (s : Nat) : Decidable (c.Faulty active s) :=
  inferInstanceAs (Decidable (_ ∨ _))

theorem mem_activeOf {x : Nat} : x ∈ c.activeOf active s ↔ x ∈ c.children s ∧ x ∈ active := by
  simp [activeOf]

theorem Faulty.composite (h : c.Faulty active s) : c.IsComposite s :=
  h.imp And.left And.left

/-- A composite state with an active child breaks its rule if too few of its regions are active
or too many of its children. -/
theorem faulty_iff (hc : c.IsComposite s) (hsome : c.activeOf active s ≠ [])
    (hnodup : (c.children s).Nodup) : c.Faulty active s ↔
      if c.kind s = .parallel then (c.activeOf active s).length < (c.children s).length
      else 1 < (c.activeOf active s).length := by
  rcases hc with hk | hk
  · have hone : c.HasOneActive active s ↔ (c.activeOf active s).length ≤ 1 := by
      have hdrawn : (c.activeOf active s).Nodup := hnodup.filter _
      rw [hasOneActive_iff]
      constructor
      · rintro ⟨x, -, -, hx⟩
        have hsub : c.activeOf active s ⊆ [x] := by
          intro y hy
          obtain ⟨hyc, hya⟩ := mem_activeOf.1 hy
          exact List.mem_singleton.2 (hx y hyc hya)
        simpa using (hdrawn.subperm hsub).length_le
      · intro hle
        obtain ⟨x, hx⟩ : ∃ x, c.activeOf active s = [x] :=
          List.length_eq_one_iff.1
            (Nat.le_antisymm hle (List.length_pos_iff.2 hsome))
        have hmem : ∀ y, y ∈ c.children s ∧ y ∈ active ↔ y = x := by
          intro y
          rw [← mem_activeOf, hx, List.mem_singleton]
        exact ⟨x, ((hmem x).2 rfl).1, ((hmem x).2 rfl).2,
          fun y hyc hya => (hmem y).1 ⟨hyc, hya⟩⟩
    simp [Faulty, hk, hone]
  · have hall : (∀ x ∈ c.children s, x ∈ active) ↔
        (c.children s).length ≤ (c.activeOf active s).length := by
      have hfilter := List.length_filter_eq_length_iff (p := fun x => decide (x ∈ active))
        (l := c.children s)
      simp only [decide_eq_true_eq] at hfilter
      rw [← hfilter, activeOf]
      exact ⟨fun h => h.ge, fun h => Nat.le_antisymm (List.length_filter_le _ _) h⟩
    simp [Faulty, hk, hall]

namespace WellFormed

variable (hw : c.WellFormed)

include hw

/-- What the walks upward collected at a state are its children in the closure. -/
theorem members_of_activeChildren {states children : StateSet} (ha : c.AllAtomic states)
    (hget : (c.activeChildren states.members).get? s = some children) :
    children.members = c.activeOf (c.closure states.members) s := by
  have hascending : (c.activeOf (c.closure states.members) s).Pairwise (· < ·) :=
    (hw.children_ascending s).filter _
  apply StateSet.ascending_ext children.ascending hascending
  intro x
  rw [mem_activeOf, ← hw.mem_activeChildren_of_allAtomic ha, hget]
  rfl

/-- Children were collected at the composite states of the closure. -/
theorem activeChildren_isSome_iff {states : StateSet} (ha : c.AllAtomic states) :
    ((c.activeChildren states.members).get? s).isSome ↔
      s ∈ c.closure states.members ∧ c.IsComposite s := by
  rw [hw.activeChildren_isSome]
  constructor
  · rintro ⟨a, haS, hbelow⟩
    exact ⟨hw.mem_closure.2 ⟨a, haS, hbelow.within⟩, hw.composite_of_below hbelow⟩
  · rintro ⟨hs, hc⟩
    exact hw.exists_below_of_mem_closure ha hs hc

/-- An entry of what was collected gives a violation if its state breaks the rule. -/
theorem violation?_eq {states children : StateSet} (ha : c.AllAtomic states)
    (hget : (c.activeChildren states.members).get? s = some children) :
    c.violation? s children =
      if c.Faulty (c.closure states.members) s then some (c.fault (c.closure states.members) s)
      else none := by
  have hmembers := hw.members_of_activeChildren ha hget
  obtain ⟨a, haS, hbelow⟩ := hw.activeChildren_isSome.1 (Option.isSome_of_eq_some hget)
  obtain ⟨x, hx, hax⟩ := hw.exists_child_of_below hbelow
  have hxs := mem_activeOf.2 ⟨hw.mem_children_of_within (ha.ordinary haS) hx hax,
    hw.mem_closure.2 ⟨a, haS, hax⟩⟩
  have hfaulty := faulty_iff (hw.composite_of_below hbelow) (List.ne_nil_of_mem hxs)
    ((hw.children_ascending s).imp Nat.ne_of_lt)
  simp only [violation?, fault, hfaulty, StateSet.size, hmembers]
  split <;> rfl

/-- The violations of single states are those of the states of the closure that break their
rule. -/
theorem filterMap_violation? {states : StateSet} (ha : c.AllAtomic states) :
    (c.activeChildren states.members).entries.filterMap (fun e => c.violation? e.1 e.2) =
      ((c.closure states.members).members.filter
        (fun s => decide (c.Faulty (c.closure states.members) s))).map
          (c.fault (c.closure states.members)) := by
  have hkeys : (c.activeChildren states.members).keys.filter
      (fun s => decide (c.Faulty (c.closure states.members) s)) =
        (c.closure states.members).members.filter
          (fun s => decide (c.Faulty (c.closure states.members) s)) := by
    -- Both lists ascend, and a state that breaks its rule is composite.
    have hascending : (c.activeChildren states.members).keys.Pairwise (· < ·) :=
      List.pairwise_map.2 (c.activeChildren states.members).ascending
    apply StateSet.ascending_ext (hascending.filter _)
      ((c.closure states.members).ascending.filter _)
    intro s
    rw [List.mem_filter, List.mem_filter, SortedMap.mem_keys_iff,
      hw.activeChildren_isSome_iff ha, decide_eq_true_eq]
    constructor
    · rintro ⟨⟨hs, -⟩, hf⟩
      exact ⟨hs, hf⟩
    · rintro ⟨hs, hf⟩
      exact ⟨⟨hs, hf.composite⟩, hf⟩
  rw [← hkeys, SortedMap.keys, List.filter_map, List.map_map, ← List.filterMap_eq_map,
    List.filterMap_filter]
  apply List.filterMap_congr
  rintro ⟨s, children⟩ he
  simp [hw.violation?_eq ha (SortedMap.mem_entries_iff.1 he)]

theorem tops_eq {states : StateSet} :
    (StateSet.ofList (states.members.map c.root)).members =
      c.activeTops (c.closure states.members) := by
  apply StateSet.ascending_ext (StateSet.ascending _)
    ((c.closure states.members).ascending.filter _)
  intro t
  rw [List.mem_filter, decide_eq_true_eq]
  exact hw.mem_tops.trans and_comm

/-- The closure of states without children is legal if the rules hold of it: everything else a
legal set is required to be, a closure is anyway. -/
theorem legal_closure_iff {states : StateSet} (ha : c.AllAtomic states) :
    c.Legal (c.closure states.members) ↔
      (∀ s ∈ c.closure states.members, c.kind s = .compound →
        ∃! x, x ∈ c.children s ∧ x ∈ c.closure states.members) ∧
      (∀ s ∈ c.closure states.members, c.kind s = .parallel →
        ∀ x ∈ c.children s, x ∈ c.closure states.members) ∧
      (∀ s ∈ c.closure states.members, ∀ t ∈ c.closure states.members,
        c.parent s = none → c.parent t = none → s = t) := by
  constructor
  · intro hl
    exact ⟨fun s hs hk => hl.compound hs hk, fun s hs hk => hl.parallel hs hk,
      fun s hs t ht hps hpt => hl.top hs ht hps hpt⟩
  · rintro ⟨hcompound, hparallel, htop⟩
    refine ⟨hw.ordinary_of_mem_closure ha, ?_, fun hs hk => hcompound _ hs hk,
      fun hs hk => hparallel _ hs hk, fun hs ht hps hpt => htop _ hs _ ht hps hpt⟩
    intro s p hs hp
    exact hw.closure_upward hs (hw.below_parent hp).within

end WellFormed

/-- The check of states without children finds nothing exactly if in their closure every compound
state has one child, every parallel state has all of them and the top level has one state at
most. What it finds is one violation for each state of the closure that breaks its rule, in
document order, and one for the top level behind them if several of its states are active. -/
theorem violations_of_build {o : Outline} (hbuild : o.build = .ok c) {states : StateSet}
    (ha : c.AllAtomic states) :
    let active := c.closure states.members
    (c.violations states = [] ↔
      (∀ s ∈ active, c.kind s = .compound → ∃! x, x ∈ c.children s ∧ x ∈ active) ∧
      (∀ s ∈ active, c.kind s = .parallel → ∀ x ∈ c.children s, x ∈ active) ∧
      (∀ s ∈ active, ∀ t ∈ active, c.parent s = none → c.parent t = none → s = t)) ∧
    c.violations states =
      (active.members.filter (fun s => decide (c.Faulty active s))).map (c.fault active) ++
        if 1 < (c.activeTops active).length then
          [.multipleTopLevel (c.idsOf (c.activeTops active))]
        else [] := by
  have hw := (Outline.wellFormed_of_build hbuild).1
  refine ⟨(hw.violations_eq_nil_iff ha).trans (hw.legal_closure_iff ha), ?_⟩
  rw [violations, hw.filterMap_violation? ha]
  simp only [StateSet.size, hw.tops_eq]

/-- Of the player both states of the track and the state `off` cannot be active together: a region
is missing, the track has two states and so has the top level. -/
theorem violations_of_build_player :
    Outline.player.chart.violations (StateSet.ofList [2, 3, 10]) =
      [.incompleteParallel "on" 1 2, .multipleActiveChildren "track" ["paused", "playing"],
        .multipleTopLevel ["on", "off"]] := by
  have hatomic : Outline.player.chart.AllAtomic (StateSet.ofList [2, 3, 10]) := by
    have : ∀ s ∈ [2, 3, 10], Outline.player.chart.isAtomic s = true ∧
        s < Outline.player.chart.nodes.size := by
      decide +kernel
    exact fun s hs => this s (StateSet.mem_ofList.1 hs)
  rw [(violations_of_build Outline.build_player hatomic).2]
  decide +kernel

end Statechart.Chart
