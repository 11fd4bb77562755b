import Mathlib.Algebra.GroupWithZero.Nat
import Mathlib.Data.List.Basic
import Statechart.Chart.Validation
import Statechart.Proofs.Chart.Parting
import Statechart.Proofs.Chart.Placement

/-!
Charts that are built. The nodes of the chart of an outline are those that placement lays out,
with the numbers of their transitions filled in, and its transitions are their arrows in order.
A chart that is handed out has no problems; so it is well formed, and its targets meet the
checks that were made of them.
-/

namespace Statechart

namespace Chart

/-- What the checks of targets leave to rely on. -/
structure Checked (c : Chart) : Prop where
  start : c.initial.Pairwise c.Orthogonal
  targets : ∀ {t}, t < c.transitions.size → c.isPseudo (c.transition t).source = false →
    (c.transition t).targets.Pairwise c.Orthogonal
  entry : ∀ {i s t}, c.kind i = .initial → c.parent i = some s → t ∈ (c.node i).transitions →
    (c.transition t).targets.Pairwise c.Orthogonal ∧
      ∀ x ∈ (c.transition t).targets, c.Below x s
  shallow : ∀ {h s t}, c.kind h = .history .shallow → c.parent h = some s →
    t ∈ (c.node h).transitions → ∀ x ∈ (c.transition t).targets, c.parent x = some s
  deep : ∀ {h s t}, c.kind h = .history .deep → c.parent h = some s →
    t ∈ (c.node h).transitions → ∀ x ∈ (c.transition t).targets, c.Below x s

end Chart

/-- The number of the first transition of the node at the number `k`. -/
def firstArrow (nodes : List (Node × List Arrow)) (k : Nat) : Nat :=
  ((nodes.take k).map (fun e => e.2.length)).sum

/-- An arrow as a transition that starts at `source`. -/
def Arrow.resolve (ids : List String) (source : Nat) (a : Arrow) : Transition :=
  ⟨source, a.events, a.condition, a.targets.filterMap (Ref.number? ids), a.kind, a.actions⟩

section Numbering

variable {ids : List String}

theorem getElem?_numberTransitions (next : Nat) (nodes : List (Node × List Arrow)) (k : Nat) :
    (numberTransitions next nodes)[k]? = nodes[k]?.map (fun e =>
      { e.1 with transitions := List.range' (next + firstArrow nodes k) e.2.length }) := by
  induction nodes generalizing next k with
  | nil => rfl
  | cons e rest ih =>
    cases k with
    | zero => simp [numberTransitions, firstArrow]
    | succ k =>
      rw [numberTransitions, List.getElem?_cons_succ, List.getElem?_cons_succ, ih]
      simp [firstArrow, Nat.add_assoc]

theorem length_numberTransitions (next : Nat) (nodes : List (Node × List Arrow)) :
    (numberTransitions next nodes).length = nodes.length := by
  induction nodes generalizing next with
  | nil => rfl
  | cons e rest ih => simp [numberTransitions, ih]

theorem getElem?_resolveFrom (ids : List String) (source : Nat)
    {nodes : List (Node × List Arrow)} {k j : Nat} {e : Node × List Arrow}
    (he : nodes[k]? = some e) (hj : j < e.2.length) :
    (resolveFrom ids source nodes)[firstArrow nodes k + j]? =
      some (e.2[j].resolve ids (source + k)) := by
  induction nodes generalizing source k with
  | nil => simp at he
  | cons f rest ih =>
    obtain ⟨n, arrows⟩ := f
    rw [resolveFrom]
    cases k with
    | zero =>
      obtain rfl : (n, arrows) = e := by simpa using he
      have hj : j < arrows.length := hj
      simp [firstArrow, List.getElem?_append_left, hj, Arrow.resolve]
    | succ k =>
      rw [List.getElem?_append_right (by simp [firstArrow]; omega)]
      have hfirst : firstArrow ((n, arrows) :: rest) (k + 1) + j - arrows.length =
          firstArrow rest k + j := by
        simp [firstArrow]
        omega
      rw [List.length_map, hfirst, ih (source + 1) (by simpa using he), Nat.add_right_comm,
        Nat.add_assoc]

/-- Every transition is an arrow of a node. -/
theorem exists_arrow {source t : Nat} {nodes : List (Node × List Arrow)}
    (ht : t < (resolveFrom ids source nodes).length) :
    ∃ k j e, nodes[k]? = some e ∧ j < e.2.length ∧ t = firstArrow nodes k + j := by
  induction nodes generalizing source t with
  | nil => simp [resolveFrom] at ht
  | cons f rest ih =>
    obtain ⟨n, arrows⟩ := f
    rw [resolveFrom, List.length_append, List.length_map] at ht
    by_cases hlt : t < arrows.length
    · exact ⟨0, t, (n, arrows), rfl, hlt, by simp [firstArrow]⟩
    · have hrest : t - arrows.length < (resolveFrom ids (source + 1) rest).length := by omega
      obtain ⟨k, j, e, he, hj, ht⟩ := ih hrest
      refine ⟨k + 1, j, e, he, hj, ?_⟩
      simp [firstArrow] at ht ⊢
      omega

end Numbering

section Names

theorem nodup_of_problemsFrom {seen : List String} {placed : List Placed}
    (h : Placed.problemsFrom seen placed = []) : StateOutline.Sound placed ∧
      ((StateOutline.nodesOf placed).map (fun e => e.1.id)).Nodup ∧
      ∀ e ∈ StateOutline.nodesOf placed, e.1.id ∉ seen := by
  induction placed generalizing seen with
  | nil => simp [StateOutline.Sound, StateOutline.nodesOf]
  | cons x rest ih =>
    cases x with
    | problem p => simp [Placed.problemsFrom] at h
    | node n arrows =>
      rw [Placed.problemsFrom] at h
      split at h
      · cases h
      · next hseen =>
        obtain ⟨hsound, hnodup, hnew⟩ := ih h
        have hcons : StateOutline.nodesOf (.node n arrows :: rest) =
            (n, arrows) :: StateOutline.nodesOf rest := rfl
        refine ⟨?_, ?_, ?_⟩
        · intro p hp
          exact hsound p (by simpa using hp)
        · rw [hcons, List.map_cons, List.nodup_cons]
          refine ⟨?_, hnodup⟩
          intro hmem
          obtain ⟨e, he, hid⟩ := List.mem_map.1 hmem
          exact hnew e he (by simp [hid])
        · intro e he
          rcases List.mem_cons.1 he with rfl | he
          · exact hseen
          · exact fun hin => hnew e he (List.mem_cons_of_mem _ hin)

theorem isSome_number? {ids : List String} {owner : String} {r : Ref}
    (h : r.problem? ids owner = none) : ∃ x, r.number? ids = some x := by
  cases r with
  | number s => exact ⟨s, rfl⟩
  | id name =>
    simp only [Ref.problem?, ite_eq_left_iff, reduceCtorEq, imp_false, Classical.not_not] at h
    rw [← Option.isSome_iff_exists]
    simp [Ref.number?, h]

theorem lt_of_number? {ids : List String} {r : Ref} {x : Nat} (h : r.number? ids = some x)
    (hnumber : ∀ s, r = .number s → s < ids.length) : x < ids.length := by
  cases r with
  | number s =>
    obtain rfl : s = x := by simpa [Ref.number?] using h
    exact hnumber s rfl
  | id name =>
    obtain ⟨hlt, -⟩ := List.findIdx?_eq_some_iff_getElem.1 h
    exact hlt

theorem filterMap_number?_ne_nil {ids : List String} {owner : String} {refs : List Ref}
    (hne : refs ≠ []) (h : refs.filterMap (Ref.problem? ids owner) = []) :
    refs.filterMap (Ref.number? ids) ≠ [] := by
  obtain ⟨r, hr⟩ := List.exists_mem_of_ne_nil _ hne
  obtain ⟨x, hx⟩ := isSome_number? (List.filterMap_eq_nil_iff.1 h r hr)
  exact List.ne_nil_of_mem (List.mem_filterMap.2 ⟨r, hr, hx⟩)

end Names

namespace Outline

open StateOutline

/-- The nodes that placement lays out, with the arrows that start at them. -/
def layout (o : Outline) : List (Node × List Arrow) :=
  nodesOf o.placed

def ids (o : Outline) : List String :=
  o.layout.map (fun e => e.1.id)

/-- Placement met no problem, and every name stands for a node. -/
structure Resolved (o : Outline) : Prop where
  states_ne_nil : o.states ≠ []
  sound : Sound o.placed
  ids_nodup : o.ids.Nodup
  arrows : ∀ e ∈ o.layout, ∀ a ∈ e.2, a.targets.filterMap (Ref.problem? o.ids e.1.id) = []
  start : o.start.filterMap (Ref.problem? o.ids startOwner) = []

theorem resolved_of_build {o : Outline} {c : Chart} (h : o.build = .ok c) :
    o.Resolved ∧ c = o.chart ∧ c.problems = [] := by
  unfold build at h
  split at h
  · cases h
  · next hstates =>
    split at h
    · next hplacement =>
      split at h
      · next hproblems =>
        obtain rfl : o.chart = c := Except.ok.inj h
        unfold placementProblems at hplacement
        obtain ⟨hplacement, hstart⟩ := List.append_eq_nil_iff.1 hplacement
        obtain ⟨hplaced, harrows⟩ := List.append_eq_nil_iff.1 hplacement
        obtain ⟨hsound, hnodup, -⟩ := nodup_of_problemsFrom hplaced
        refine ⟨⟨?_, hsound, hnodup, ?_, hstart⟩, rfl, hproblems⟩
        · simpa using hstates
        · intro e he a ha
          exact List.flatMap_eq_nil_iff.1 (List.flatMap_eq_nil_iff.1 harrows e he) a ha
      · cases h
    · cases h

section Nodes

variable {o : Outline}

theorem nodes_chart (o : Outline) : o.chart.nodes = (numberTransitions 0 o.layout).toArray := rfl

theorem transitions_chart (o : Outline) :
    o.chart.transitions = (resolveFrom o.ids 0 o.layout).toArray := rfl

theorem size_transitions (o : Outline) :
    o.chart.transitions.size = (resolveFrom o.ids 0 o.layout).length := by
  rw [transitions_chart, List.size_toArray]

theorem size_nodes (o : Outline) : o.chart.nodes.size = o.layout.length := by
  simp [nodes_chart, length_numberTransitions]

theorem node_chart {k : Nat} {e : Node × List Arrow} (h : o.layout[k]? = some e) :
    o.chart.node k =
      { e.1 with transitions := List.range' (firstArrow o.layout k) e.2.length } := by
  have hnode := getElem?_numberTransitions 0 o.layout k
  rw [h, Option.map_some, Nat.zero_add] at hnode
  rw [Chart.node, Array.getD_eq_getD_getElem?, nodes_chart, List.getElem?_toArray, hnode]
  rfl

theorem transition_chart {k j : Nat} {e : Node × List Arrow}
    (h : o.layout[k]? = some e) (hj : j < e.2.length) :
    o.chart.transition (firstArrow o.layout k + j) =
      e.2[j].resolve o.ids k := by
  have harrow := getElem?_resolveFrom o.ids 0 h hj
  rw [Nat.zero_add] at harrow
  rw [Chart.transition, Array.getD_eq_getD_getElem?]
  simp only [chart, List.getElem?_toArray]
  exact congrArg (Option.getD · _) harrow

theorem exists_node {k : Nat} (h : k < o.chart.nodes.size) :
    ∃ e, o.layout[k]? = some e := by
  rw [size_nodes] at h
  exact ⟨_, List.getElem?_eq_getElem h⟩

/-- The transitions of a node are its arrows. -/
theorem mem_transitions_chart {k t : Nat} {e : Node × List Arrow}
    (h : o.layout[k]? = some e) : t ∈ (o.chart.node k).transitions ↔
      t < o.chart.transitions.size ∧ (o.chart.transition t).source = k := by
  rw [node_chart h, List.mem_range'_1]
  constructor
  · rintro ⟨hle, hlt⟩
    obtain ⟨j, rfl⟩ := Nat.exists_eq_add_of_le hle
    have hj : j < e.2.length := by omega
    refine ⟨?_, ?_⟩
    · have harrow := getElem?_resolveFrom o.ids 0 h hj
      rw [size_transitions]
      exact (List.getElem?_eq_some_iff.1 harrow).1
    · rw [transition_chart h hj]
      rfl
  · rintro ⟨hlt, hsource⟩
    rw [size_transitions] at hlt
    obtain ⟨k', j, e', he', hj, rfl⟩ := exists_arrow hlt
    rw [transition_chart he' hj] at hsource
    obtain rfl : k' = k := hsource
    obtain rfl : e' = e := Option.some.inj (he'.symm.trans h)
    omega

theorem exists_source {t : Nat} (h : t < o.chart.transitions.size) :
    ∃ (k j : Nat) (e : Node × List Arrow) (hj : j < e.2.length), o.layout[k]? = some e ∧
      o.chart.transition t = e.2[j].resolve o.ids k := by
  rw [size_transitions] at h
  obtain ⟨k, j, e, he, hj, rfl⟩ := exists_arrow h
  exact ⟨k, j, e, hj, he, transition_chart he hj⟩

theorem mem_transitions {t s : Nat} : t ∈ (o.chart.node s).transitions ↔
    t < o.chart.transitions.size ∧ (o.chart.transition t).source = s := by
  by_cases hs : s < o.chart.nodes.size
  · obtain ⟨e, he⟩ := exists_node hs
    exact mem_transitions_chart he
  · rw [Chart.node_absent (Nat.le_of_not_lt hs)]
    simp only [Node.absent, List.not_mem_nil, false_iff, not_and]
    intro ht hsource
    obtain ⟨k, j, e, hj, he, htransition⟩ := exists_source ht
    rw [htransition] at hsource
    obtain rfl : k = s := hsource
    rw [size_nodes] at hs
    exact hs (lt_of_getElem?_eq_some he)

theorem length_layout (o : Outline) : o.layout.length = sizeAll o.states :=
  length_nodesOf_placeAll 0 none 0 o.states

theorem length_ids (o : Outline) : o.ids.length = o.layout.length :=
  List.length_map _

theorem stands (o : Outline) : Stands o.layout 0 (placeAll 0 none 0 o.states) :=
  List.prefix_rfl

theorem start_ne_nil (o : Outline) : o.start ≠ [] := by
  unfold start
  split
  · simp
  · next hne => simpa using hne

theorem number_of_mem_start {s : Nat} (hs : .number s ∈ o.start) : s = 0 := by
  unfold start at hs
  split at hs
  · simpa using hs
  · simp at hs

end Nodes

namespace Resolved

variable {o : Outline} (h : o.Resolved)

include h

theorem root {k : Nat} (hk : k ∈ o.chart.topLevel) : Root o.layout none 0 k :=
  (laid_of_placeAll o.states (stands o) h.sound).1 k hk

theorem laid {k : Nat} {e : Node × List Arrow} (he : o.layout[k]? = some e) :
    Owns o.layout k e ∧ (k ∈ o.chart.topLevel ∨ ∃ p q, Listed o.layout k e p q) := by
  have hk := lt_of_getElem?_eq_some he
  rw [length_layout] at hk
  obtain ⟨e', he', howns, hplace⟩ :=
    (laid_of_placeAll o.states (stands o) h.sound).2 k (Nat.zero_le k) (by omega)
  obtain rfl : e = e' := Option.some.inj (he.symm.trans he')
  exact ⟨howns, hplace⟩

theorem listed {s p : Nat} (hp : o.chart.parent s = some p) :
    ∃ e q, o.layout[s]? = some e ∧ Listed o.layout s e p q := by
  obtain ⟨e, he⟩ := exists_node (Chart.lt_size_of_parent hp)
  have hparent : e.1.parent = some p := by
    rw [Chart.parent, node_chart he] at hp
    exact hp
  refine ⟨e, ?_⟩
  rcases (h.laid he).2 with htop | ⟨p', q, hlisted⟩
  · obtain ⟨e', he', hnone, -⟩ := h.root htop
    obtain rfl : e = e' := Option.some.inj (he.symm.trans he')
    rw [hnone] at hparent
    cases hparent
  · obtain rfl : p' = p := Option.some.inj (hlisted.parent.symm.trans hparent)
    exact ⟨q, he, hlisted⟩

theorem states_pos : 0 < o.layout.length := by
  rw [length_layout]
  cases hs : o.states with
  | nil => exact absurd hs h.states_ne_nil
  | cons s rest =>
    rw [sizeAll]
    exact Nat.add_pos_left s.size_pos _

theorem targets_ne_nil {k : Nat} {e : Node × List Arrow} {a : Arrow} (he : o.layout[k]? = some e)
    (ha : a ∈ e.2) (hne : a.targets ≠ []) : (a.resolve o.ids k).targets ≠ [] :=
  filterMap_number?_ne_nil hne (h.arrows e (List.mem_of_getElem? he) a ha)

theorem mem_children {s p : Nat} :
    s ∈ o.chart.children p ↔ o.chart.parent s = some p ∧ o.chart.isPseudo s = false := by
  constructor
  · intro hs
    obtain ⟨q, hq⟩ := exists_node (Chart.lt_size_of_mem_children hs)
    rw [Chart.children, node_chart hq] at hs
    obtain ⟨e, he, hparent, hordinary⟩ := (h.laid hq).1.child s hs
    rw [Chart.parent, Chart.isPseudo, Chart.kind, node_chart he]
    exact ⟨hparent, hordinary⟩
  · rintro ⟨hp, hordinary⟩
    obtain ⟨e, q, he, hlisted⟩ := h.listed hp
    rw [Chart.isPseudo, Chart.kind, node_chart he] at hordinary
    rw [Chart.children, node_chart hlisted.stands]
    exact hlisted.child hordinary

theorem children_ascending (p : Nat) : (o.chart.children p).Pairwise (· < ·) := by
  by_cases hp : p < o.chart.nodes.size
  · obtain ⟨q, hq⟩ := exists_node hp
    rw [Chart.children, node_chart hq]
    exact (h.laid hq).1.children_ascending
  · rw [Chart.children, Chart.node_absent (Nat.le_of_not_lt hp)]
    exact .nil

theorem mem_topLevel {s : Nat} :
    s ∈ o.chart.topLevel ↔ s < o.chart.nodes.size ∧ o.chart.parent s = none := by
  constructor
  · intro hs
    obtain ⟨e, he, hparent, -⟩ := h.root hs
    rw [size_nodes, Chart.parent, node_chart he]
    exact ⟨lt_of_getElem?_eq_some he, hparent⟩
  · rintro ⟨hs, hparent⟩
    obtain ⟨e, he⟩ := exists_node hs
    rw [Chart.parent, node_chart he] at hparent
    rcases (h.laid he).2 with htop | ⟨p, q, hlisted⟩
    · exact htop
    · rw [hlisted.parent] at hparent
      cases hparent

theorem pseudo_parent {s : Nat} (hs : o.chart.isPseudo s = true) :
    ∃ p, o.chart.parent s = some p := by
  obtain ⟨e, he⟩ := exists_node (Chart.lt_size_of_isPseudo hs)
  rw [Chart.isPseudo, Chart.kind, node_chart he] at hs
  rw [Chart.parent, node_chart he]
  rcases (h.laid he).2 with htop | ⟨p, q, hlisted⟩
  · obtain ⟨e', he', -, -, hordinary⟩ := h.root htop
    obtain rfl : e = e' := Option.some.inj (he.symm.trans he')
    rw [hordinary] at hs
    cases hs
  · exact ⟨p, hlisted.parent⟩

theorem default_entry {s : Nat} (hk : o.chart.kind s = .compound) :
    ∃ i t, (o.chart.node s).initial = some i ∧ o.chart.kind i = .initial ∧
      o.chart.parent i = some s ∧ (o.chart.node i).transitions = [t] := by
  obtain ⟨e, he⟩ := exists_node (Chart.IsComposite.lt_size (.inl hk))
  rw [Chart.kind, node_chart he] at hk
  obtain ⟨i, f, hinitial, hf, hkind, hparent⟩ := (h.laid he).1.entry hk
  obtain ⟨a, ha, -⟩ := (h.laid hf).1.arrow (by rw [hkind]; rfl)
  refine ⟨i, firstArrow o.layout i, ?_⟩
  rw [Chart.kind, Chart.parent, node_chart he, node_chart hf]
  refine ⟨hinitial, hkind, hparent, ?_⟩
  simp [ha]

theorem mem_histories {x s : Nat} :
    x ∈ (o.chart.node s).histories ↔ o.chart.parent x = some s ∧ o.chart.IsHistory x := by
  constructor
  · intro hx
    obtain ⟨e, he⟩ := exists_node (Chart.lt_size_of_mem_histories hx)
    rw [node_chart he] at hx
    obtain ⟨f, hf, hparent, hkind⟩ := (h.laid he).1.history x hx
    rw [Chart.parent, Chart.IsHistory, Chart.kind, node_chart hf]
    exact ⟨hparent, hkind⟩
  · rintro ⟨hp, hkind⟩
    obtain ⟨e, q, he, hlisted⟩ := h.listed hp
    rw [Chart.IsHistory, Chart.kind, node_chart he] at hkind
    rw [node_chart hlisted.stands]
    exact hlisted.history hkind

theorem pseudo_transition {s : Nat} (hs : o.chart.isPseudo s = true) :
    ∃ t, (o.chart.node s).transitions = [t] ∧ (o.chart.transition t).targets ≠ [] := by
  obtain ⟨e, he⟩ := exists_node (Chart.lt_size_of_isPseudo hs)
  rw [Chart.isPseudo, Chart.kind, node_chart he] at hs
  obtain ⟨a, ha, hne⟩ := (h.laid he).1.arrow hs
  refine ⟨firstArrow o.layout s, ?_, ?_⟩
  · rw [node_chart he]
    simp [ha]
  · have htransition := transition_chart he (j := 0) (by simp [ha])
    rw [Nat.add_zero] at htransition
    rw [htransition]
    exact h.targets_ne_nil he (by simp) (by simpa [ha] using hne)

theorem targets_lt {t x : Nat} (hx : x ∈ (o.chart.transition t).targets) :
    x < o.chart.nodes.size := by
  have ht : t < o.chart.transitions.size := by
    by_contra ht
    simp [Chart.transition, Array.getD, ht] at hx
  obtain ⟨k, j, e, hj, he, htransition⟩ := exists_source ht
  rw [htransition] at hx
  obtain ⟨r, hr, hx⟩ := List.mem_filterMap.1 hx
  rw [size_nodes, ← length_ids]
  refine lt_of_number? hx ?_
  rintro s rfl
  rw [length_ids]
  exact (h.laid he).1.target _ (List.getElem_mem hj) s hr

theorem initial_lt {x : Nat} (hx : x ∈ o.chart.initial) : x < o.chart.nodes.size := by
  obtain ⟨r, hr, hx⟩ := List.mem_filterMap.1 hx
  replace hx : r.number? o.ids = some x := hx
  rw [size_nodes, ← length_ids]
  refine lt_of_number? hx ?_
  rintro s rfl
  rw [length_ids, number_of_mem_start hr]
  exact h.states_pos

theorem idOf_injective {s t : Nat} (hs : s < o.chart.nodes.size) (ht : t < o.chart.nodes.size)
    (hid : o.chart.idOf s = o.chart.idOf t) : s = t := by
  obtain ⟨e, he⟩ := exists_node hs
  obtain ⟨f, hf⟩ := exists_node ht
  rw [Chart.idOf, Chart.idOf, node_chart he, node_chart hf] at hid
  have hget : o.ids[s]? = o.ids[t]? := by
    simp only [ids, List.getElem?_map, he, hf, Option.map_some]
    exact congrArg some hid
  rw [size_nodes, ← length_ids] at hs
  exact (List.getElem?_inj hs h.ids_nodup).1 hget

theorem wellFormed : o.chart.WellFormed where
  parent_lt := by
    intro s p hp
    obtain ⟨e, q, -, hlisted⟩ := h.listed hp
    exact hlisted.lt
  parent_composite := by
    intro s p hp
    obtain ⟨e, q, -, hlisted⟩ := h.listed hp
    rw [Chart.IsComposite, Chart.kind, node_chart hlisted.stands]
    exact hlisted.composite
  depth_child := by
    intro s p hp
    obtain ⟨e, q, he, hlisted⟩ := h.listed hp
    rw [node_chart he, node_chart hlisted.stands]
    exact hlisted.depth
  mem_children := h.mem_children
  children_ascending := h.children_ascending
  children_ne_nil := by
    intro p hp
    obtain ⟨q, hq⟩ := exists_node hp.lt_size
    rw [Chart.IsComposite, Chart.kind, node_chart hq] at hp
    rw [Chart.children, node_chart hq]
    exact (h.laid hq).1.children_ne_nil hp
  mem_topLevel := h.mem_topLevel
  pseudo_parent := h.pseudo_parent
  default_entry := h.default_entry
  mem_histories := h.mem_histories
  pseudo_transition := h.pseudo_transition
  mem_transitions := mem_transitions
  source_lt := by
    intro t ht
    obtain ⟨k, j, e, hj, he, htransition⟩ := exists_source ht
    rw [htransition, size_nodes]
    exact lt_of_getElem?_eq_some he
  targets_lt := h.targets_lt
  initial_lt := h.initial_lt
  initial_ne_nil := filterMap_number?_ne_nil (start_ne_nil o) h.start
  idOf_injective := h.idOf_injective

end Resolved

section Checks

variable {c : Chart}

theorem orthogonal_of_targetProblems (hw : c.WellFormed) {owner : String} {targets : List Nat}
    (h : c.targetProblems owner targets = []) : targets.Pairwise c.Orthogonal := by
  unfold Chart.targetProblems at h
  split at h
  · next hc => exact hw.areCompatible_iff.1 hc
  · cases h

theorem nodeProblems_of_problems (h : c.problems = []) {s : Nat} (hs : s < c.nodes.size) :
    c.nodeProblems (c.node s) = [] := by
  apply List.flatMap_eq_nil_iff.1 (List.append_eq_nil_iff.1 h).2 _
  simp [Chart.node, Array.getD, hs]

/-- The default targets of a history are among those that its depth allows. -/
theorem allowed_of_problems (hw : c.WellFormed) (h : c.problems = []) {x s t y : Nat}
    {depth : HistoryDepth} (hk : c.kind x = .history depth) (hp : c.parent x = some s)
    (ht : t ∈ (c.node x).transitions) (hy : y ∈ (c.transition t).targets) :
    match depth with
    | .shallow => c.parent y = some s
    | .deep => c.Below y s := by
  have hnode := nodeProblems_of_problems h (Chart.lt_size_of_parent hp)
  obtain ⟨t', htransitions, -⟩ :=
    hw.pseudo_transition (show c.isPseudo x = true by rw [Chart.isPseudo, hk]; rfl)
  rw [htransitions, List.mem_singleton] at ht
  subst ht
  rw [Chart.kind] at hk
  rw [Chart.parent] at hp
  simp only [Chart.nodeProblems, Chart.historyProblems, hk, hp, htransitions, List.head?_cons]
    at hnode
  cases depth with
  | shallow =>
    have hall := List.filter_eq_nil_iff.1 (List.map_eq_nil_iff.1 hnode) y hy
    simpa using hall
  | deep =>
    have hall := List.filter_eq_nil_iff.1 (List.map_eq_nil_iff.1 hnode) y hy
    rw [← Chart.isDescendant_iff]
    simpa using hall

theorem checked_of_problems (hw : c.WellFormed) (h : c.problems = []) : c.Checked where
  start := orthogonal_of_targetProblems hw (List.append_eq_nil_iff.1 h).1
  targets := by
    intro t ht hordinary
    have hnode := nodeProblems_of_problems h (hw.source_lt ht)
    have hmem := hw.mem_transitions.2 ⟨ht, rfl⟩
    rw [Chart.isPseudo, Chart.kind] at hordinary
    cases hk : (c.node (c.transition t).source).kind with
    | initial =>
      rw [hk] at hordinary
      cases hordinary
    | history depth =>
      rw [hk] at hordinary
      cases hordinary
    | _ =>
      simp only [Chart.nodeProblems, hk] at hnode
      exact orthogonal_of_targetProblems hw
        (List.flatMap_eq_nil_iff.1 (List.append_eq_nil_iff.1 hnode).2 t hmem)
  entry := by
    intro i s t hk hp ht
    have hnode := nodeProblems_of_problems h (Chart.lt_size_of_parent hp)
    rw [Chart.kind] at hk
    rw [Chart.parent] at hp
    simp only [Chart.nodeProblems, hk, hp] at hnode
    obtain ⟨hbelow, htargets⟩ :=
      List.append_eq_nil_iff.1 (List.flatMap_eq_nil_iff.1 hnode t ht)
    refine ⟨orthogonal_of_targetProblems hw htargets, ?_⟩
    intro x hx
    have hall := List.filter_eq_nil_iff.1 (List.map_eq_nil_iff.1 hbelow) x hx
    rw [← Chart.isDescendant_iff]
    simpa using hall
  shallow hk hp ht _ hy := allowed_of_problems hw h hk hp ht hy
  deep hk hp ht _ hy := allowed_of_problems hw h hk hp ht hy

end Checks

/-- A chart that is handed out is well formed and keeps what was checked. -/
theorem wellFormed_of_build {o : Outline} {c : Chart} (h : o.build = .ok c) :
    c.WellFormed ∧ c.Checked := by
  obtain ⟨hresolved, rfl, hproblems⟩ := resolved_of_build h
  exact ⟨hresolved.wellFormed, checked_of_problems hresolved.wellFormed hproblems⟩

end Outline

/-- A state of which only the id, the shape, the histories and the transitions are given. -/
def StateHead.named (id : String) (shape : Shape) (histories : List HistoryOutline)
    (transitions : List TransitionOutline) : StateHead :=
  ⟨some id, shape, none, histories, transitions, [], [], [], []⟩

def TransitionOutline.on (event target : String) : TransitionOutline :=
  ⟨[event], none, [target], .external, []⟩

/-- A player with a track and a sound side by side. When it is turned on again it remembers both. -/
def Outline.player : Outline where
  name := some "player"
  datamodel := none
  initial := []
  states := [
    .mk (.named "on" .parallel [⟨some "last", .deep, none⟩] [.on "power" "off"]) [
      .mk (.named "track" .plain [] []) [
        .mk (.named "paused" .plain [] [.on "play" "playing"]) [],
        .mk (.named "playing" .plain [] [.on "play" "paused"]) []],
      .mk (.named "sound" .plain [] []) [
        .mk (.named "loud" .plain [] [.on "mute" "muted"]) [],
        .mk (.named "muted" .plain [] [.on "mute" "loud"]) []]],
    .mk (.named "off" .plain [] [.on "power" "last"]) []]
  data := []

/-- An outline without problems is built as it is placed. -/
theorem Outline.build_eq_ok {o : Outline} (hstates : o.states.isEmpty = false)
    (hplacement : o.placementProblems = []) (hproblems : o.chart.problems = []) :
    o.build = .ok o.chart := by
  simp [Outline.build, hstates, hplacement, hproblems]

theorem Outline.build_player : Outline.player.build = .ok Outline.player.chart :=
  build_eq_ok rfl (by decide +kernel) (by decide +kernel)

end Statechart
