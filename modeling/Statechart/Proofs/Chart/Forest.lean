import Mathlib.Data.List.Forall2
import Statechart.Proofs.Chart.Sites

/-!
The chart of an outline is the forest that the outline draws. Its links agree with each other and
with its numbers: what lies below a node is numbered right behind it, without a gap. Its states,
in the order of their numbers, are those of the outline in pre-order, and each of them is what the
outline says of it.
-/

namespace Statechart

namespace Chart

/-- How many nodes the state `s` takes up, with all below it. -/
def extent (c : Chart) (s : Nat) : Nat :=
  1 + c.states.countP (fun x => c.isDescendant x s)

/-- What lies below `s` or is `s` has the `n` numbers from `s` on. -/
def Fills (c : Chart) (s n : Nat) : Prop :=
  ∀ x, c.Within x s ↔ s ≤ x ∧ x < s + n

/-- A chart whose lists, links and numbers describe one forest. -/
structure Forest (c : Chart) : Prop extends c.WellFormed where
  /-- Looking up an id is the inverse of asking for it. -/
  lookup : ∀ id s, c.lookup id = some s ↔ s < c.nodes.size ∧ c.idOf s = id
  topLevel_ascending : c.topLevel.Pairwise (· < ·)
  histories_ascending : ∀ s, (c.node s).histories.Pairwise (· < ·)
  /-- A state has one default entry at most. -/
  entry : ∀ i s, (c.node s).initial = some i ↔ c.parent i = some s ∧ c.kind i = .initial
  entry_targets : ∀ i s t, c.kind i = .initial → c.parent i = some s →
    t ∈ (c.node i).transitions → ∀ x ∈ (c.transition t).targets, c.Below x s
  depth : ∀ s, (c.node s).depth = (c.ancestors s).length
  below : ∀ x a, c.Below x a ↔ a < x ∧ x < a + c.extent a
  /-- Every transition is listed once, in the order of the numbers of its source. -/
  transitions : c.states.flatMap (fun s => (c.node s).transitions) =
    List.range c.transitions.size

/-- The transition `t` is what `outline` says. -/
structure Carries (c : Chart) (t : Nat) (outline : TransitionOutline) : Prop where
  events : (c.transition t).events = outline.events
  condition : (c.transition t).condition = outline.condition
  targets : c.idsOf (c.transition t).targets = outline.targets
  kind : (c.transition t).kind = outline.kind
  actions : (c.transition t).actions = outline.actions

/-- The node `s` is the history that `outline` describes. -/
structure Recalls (c : Chart) (s : Nat) (outline : HistoryOutline) : Prop where
  id : ∀ id, outline.id = some id → c.idOf s = id
  kind : c.kind s = .history outline.depth

/-- The node `s` is what `head` says of a state with `children` inside it. -/
structure Shows (c : Chart) (s : Nat) (head : StateHead) (children : List StateOutline) :
    Prop where
  id : ∀ id, head.id = some id → c.idOf s = id
  kind : c.kind s = head.kind (!children.isEmpty)
  histories : List.Forall₂ c.Recalls (c.node s).histories head.histories
  transitions : List.Forall₂ c.Carries (c.node s).transitions head.transitions
  onEntry : (c.node s).onEntry = head.onEntry
  onExit : (c.node s).onExit = head.onExit
  data : (c.node s).data = head.data
  invokes : (c.node s).invokes = head.invokes
  extent : c.extent s = (StateOutline.mk head children).size

/-- The node `s` with all below it is what the outline draws. -/
inductive Depicts (c : Chart) : Nat → StateOutline → Prop where
  | mk {s : Nat} {head : StateHead} {children : List StateOutline}
    (shows : c.Shows s head children) (inside : List.Forall₂ (Depicts c) (c.children s) children) :
    Depicts c s (.mk head children)

end Chart

namespace Chart

/-- A stretch of the numbers below `n` has as many members as it is long. -/
theorem countP_stretch {start length n : Nat} (h : start + length ≤ n) :
    (List.range n).countP (fun x => decide (start ≤ x ∧ x < start + length)) = length := by
  have hfilter : (List.range n).filter (fun x => decide (start ≤ x ∧ x < start + length)) =
      List.range' start length := by
    refine StateSet.ascending_ext (List.pairwise_lt_range.filter _) List.pairwise_lt_range' ?_
    intro x
    simp only [List.mem_filter, List.mem_range, decide_eq_true_eq, List.mem_range'_1]
    omega
  rw [List.countP_eq_length_filter, hfilter, List.length_range']

theorem Fills.extent_eq {c : Chart} {s n : Nat} (hw : c.WellFormed) (h : c.Fills s n)
    (hpos : 0 < n) (hle : s + n ≤ c.nodes.size) : c.extent s = n := by
  have hbelow : ∀ x, c.isDescendant x s = decide (s + 1 ≤ x ∧ x < s + 1 + (n - 1)) := by
    intro x
    rw [Bool.eq_iff_iff, isDescendant_iff, decide_eq_true_eq]
    constructor
    · intro hx
      have hlt := hw.below_lt hx
      have hfill := (h x).1 hx.within
      omega
    · intro hx
      rcases within_iff.1 ((h x).2 (by omega)) with rfl | hx'
      · omega
      · exact hx'
  have hcount : c.states.countP (fun x => c.isDescendant x s) = n - 1 := by
    simp only [hbelow]
    exact countP_stretch (by omega)
  rw [extent, hcount]
  omega

theorem Fills.le_size {c : Chart} {s n : Nat} (h : c.Fills s n) (hs : s < c.nodes.size) :
    s + n ≤ c.nodes.size := by
  by_contra hlt
  rcases within_iff.1 ((h (s + n - 1)).2 (by omega)) with heq | hbelow
  · omega
  · by_cases hp : c.parent (s + n - 1) = none
    · exact WellFormed.not_below_of_top hp hbelow
    · obtain ⟨p, hp⟩ := Option.ne_none_iff_exists'.1 hp
      have := lt_size_of_parent hp
      omega

/-- In a stretch the nodes below its first are those behind it. -/
theorem Fills.below_iff {c : Chart} {s n : Nat} (hw : c.WellFormed) (h : c.Fills s n) {x : Nat} :
    c.Below x s ↔ s < x ∧ x < s + n := by
  constructor
  · exact fun hx => ⟨hw.below_lt hx, ((h x).1 hx.within).2⟩
  · rintro ⟨hlt, hlt'⟩
    rcases within_iff.1 ((h x).2 ⟨hlt.le, hlt'⟩) with rfl | hx
    · exact absurd hlt (Nat.lt_irrefl x)
    · exact hx

end Chart

namespace StateOutline

mutual
/-- A state and all states inside it, each before those inside it. -/
def preorder : StateOutline → List StateOutline
  | .mk head children => .mk head children :: preorderAll children
def preorderAll : List StateOutline → List StateOutline
  | [] => []
  | s :: rest => preorder s ++ preorderAll rest
end

/-- The sites of states are numbered in pre-order. -/
theorem numbers_ascending (states : List StateOutline) (start : Nat) (parent : Option Nat)
    (depth : Nat) : ((sitesAll start parent depth states).map Site.number).Pairwise (· < ·) ∧
      ∀ x ∈ sitesAll start parent depth states,
        start ≤ x.number ∧ x.number < start + sizeAll states := by
  induction states, start, parent, depth using place_induction with
  | nil start parent depth => exact ⟨.nil, fun x hx => (nomatch hx)⟩
  | cons x rest hinside hrest =>
    obtain ⟨hinner, hwithin⟩ := hinside
    obtain ⟨hlater, hbehind⟩ := hrest
    have hsize := x.number_add_size
    have hentry : x.entry = x.number + 1 + sizeAll x.inside := rfl
    have hfirst : x.entry ≤ x.firstHistory := Nat.le_add_right _ _
    rw [sitesAll_cons, sizeAll]
    simp only [List.map_cons, List.map_append, List.pairwise_cons, List.pairwise_append,
      List.mem_append, List.mem_map, List.mem_cons]
    refine ⟨⟨?_, hinner, hlater, ?_⟩, ?_⟩
    · rintro k (⟨y, hy, rfl⟩ | ⟨y, hy, rfl⟩)
      · exact (hwithin y hy).1
      · have := hbehind y hy
        have := x.outline.size_pos
        omega
    · rintro k ⟨y, hy, rfl⟩ l ⟨z, hz, rfl⟩
      have := hwithin y hy
      have := hbehind z hz
      omega
    · rintro y (rfl | hy | hy)
      · have := y.outline.size_pos
        omega
      · have := hwithin y hy
        omega
      · have := hbehind y hy
        omega

/-- Where nothing is left out the sites are the states in pre-order. -/
theorem map_outline_sitesAll (states : List StateOutline) (start : Nat) (parent : Option Nat)
    (depth : Nat) (h : ∀ x ∈ sitesAll start parent depth states, x.inside = x.children) :
    (sitesAll start parent depth states).map Site.outline = preorderAll states := by
  induction states, start, parent, depth using place_induction with
  | nil start parent depth => rfl
  | cons x rest hinside hrest =>
    simp only [sitesAll_cons, List.mem_cons, List.mem_append, or_imp, forall_and, forall_eq] at h
    obtain ⟨hx, hsinside, hsrest⟩ := h
    rw [sitesAll_cons, List.map_cons, List.map_append, hinside hsinside, hrest hsrest, hx,
      preorderAll, Site.outline, preorder]
    rfl

end StateOutline

namespace Outline

open StateOutline

variable {o : Outline} {x : Site}

theorem exists_site_of_lt {s : Nat} (hs : s < o.chart.nodes.size) :
    ∃ x ∈ o.sites, x.Takes s := by
  rw [size_nodes] at hs
  exact exists_site hs

theorem lt_size_of_mem_sites (hx : x ∈ o.sites) : x.number < o.chart.nodes.size := by
  rw [size_nodes]
  exact lt_of_getElem?_eq_some (layout_number hx)

theorem ordinary_of_mem_sites (hx : x ∈ o.sites) : o.chart.isPseudo x.number = false := by
  rw [Chart.isPseudo, Chart.kind, chart_number hx]
  exact kind_ordinary x.head _

/-- The states of the chart are its sites. -/
theorem ordinary_iff_site {s : Nat} :
    o.chart.Ordinary s ↔ ∃ x ∈ o.sites, x.number = s := by
  constructor
  · rintro ⟨hs, hordinary⟩
    obtain ⟨x, hx, htakes⟩ := exists_site_of_lt hs
    cases htakes with
    | own => exact ⟨x, hx, rfl⟩
    | entry hkind =>
      rw [Chart.isPseudo, Chart.kind, chart_entry hx hkind] at hordinary
      cases hordinary
    | history hj =>
      rw [Chart.isPseudo, Chart.kind, chart_history hx hj] at hordinary
      cases hordinary
  · rintro ⟨x, hx, rfl⟩
    exact ⟨lt_size_of_mem_sites hx, ordinary_of_mem_sites hx⟩

/-- The default entry of a state is the one that has it as its parent. -/
theorem initial_iff {i s : Nat} : (o.chart.node s).initial = some i ↔
    o.chart.parent i = some s ∧ o.chart.kind i = .initial := by
  constructor
  · intro hinitial
    have hs : s < o.chart.nodes.size := by
      by_contra hs
      rw [Chart.node_absent (Nat.le_of_not_lt hs)] at hinitial
      cases hinitial
    obtain ⟨x, hx, htakes⟩ := exists_site_of_lt hs
    cases htakes with
    | own =>
      rw [chart_number hx] at hinitial
      obtain ⟨hkind, rfl⟩ : x.kind = .compound ∧ x.entry = i := by
        simpa [Site.node] using hinitial
      rw [Chart.parent, Chart.kind, chart_entry hx hkind]
      exact ⟨rfl, rfl⟩
    | entry hkind =>
      rw [chart_entry hx hkind] at hinitial
      cases hinitial
    | history hj =>
      rw [chart_history hx hj] at hinitial
      cases hinitial
  · rintro ⟨hparent, hinitial⟩
    obtain ⟨x, hx, htakes⟩ := exists_site_of_lt (Chart.lt_size_of_parent hparent)
    cases htakes with
    | own =>
      have hordinary := ordinary_of_mem_sites hx
      rw [Chart.isPseudo, hinitial] at hordinary
      cases hordinary
    | entry hkind =>
      rw [Chart.parent, chart_entry hx hkind] at hparent
      obtain rfl : x.number = s := Option.some.inj hparent
      rw [chart_number hx]
      exact if_pos hkind
    | history hj =>
      rw [Chart.kind, chart_history hx hj] at hinitial
      cases hinitial

theorem histories_ascending (o : Outline) (s : Nat) :
    (o.chart.node s).histories.Pairwise (· < ·) := by
  by_cases hs : s < o.chart.nodes.size
  · obtain ⟨x, hx, htakes⟩ := exists_site_of_lt hs
    cases htakes with
    | own =>
      rw [chart_number hx]
      exact List.pairwise_lt_range'
    | entry hkind =>
      rw [chart_entry hx hkind]
      exact .nil
    | history hj =>
      rw [chart_history hx hj]
      exact .nil
  · rw [Chart.node_absent (Nat.le_of_not_lt hs)]
    exact .nil

theorem recalls (hx : x ∈ o.sites) :
    List.Forall₂ o.chart.Recalls (o.chart.node x.number).histories x.head.histories := by
  rw [chart_number hx]
  refine List.forall₂_iff_get.2 ⟨by simp [Site.node], fun j hj hj' => ?_⟩
  have hnode := chart_history hx (List.getElem?_eq_getElem hj')
  simp only [Site.node, List.get_eq_getElem, List.getElem_range', Nat.one_mul]
  constructor
  · intro id hid
    rw [Chart.idOf, hnode]
    simp [historyNode, hid]
  · rw [Chart.kind, hnode]
    rfl

theorem idOf_of_number? {name : String} {s : Nat}
    (hs : Ref.number? o.ids (.id name) = some s) : o.chart.idOf s = name := by
  obtain ⟨hlt, hid, -⟩ := List.findIdx?_eq_some_iff_getElem.1 hs
  have hlayout : s < o.layout.length := by simpa [ids] using hlt
  rw [Chart.idOf, node_chart (List.getElem?_eq_getElem hlayout)]
  simpa [ids] using hid

/-- Names that are all found are the ids of what they stand for. -/
theorem idsOf_resolved {owner : String} {names : List String}
    (hnames : (names.map Ref.id).filterMap (Ref.problem? o.ids owner) = []) :
    o.chart.idsOf ((names.map Ref.id).filterMap (Ref.number? o.ids)) = names := by
  induction names with
  | nil => rfl
  | cons name rest ih =>
    have hall := List.filterMap_eq_nil_iff.1 hnames
    obtain ⟨s, hs⟩ := isSome_number? (hall (.id name) (by simp))
    have hrest : (rest.map Ref.id).filterMap (Ref.problem? o.ids owner) = [] :=
      List.filterMap_eq_nil_iff.2 fun r hr => hall r (List.mem_cons_of_mem _ hr)
    rw [List.map_cons, List.filterMap_cons_some hs, Chart.idsOf, List.map_cons]
    exact congrArg₂ _ (idOf_of_number? hs) (ih hrest)

/-- All transitions, listed node by node. -/
theorem flatMap_numberTransitions (ids : List String) (source next : Nat)
    (nodes : List (Node × List Arrow)) :
    (numberTransitions next nodes).flatMap Node.transitions =
      List.range' next (resolveFrom ids source nodes).length := by
  induction nodes generalizing source next with
  | nil => rfl
  | cons e rest ih =>
    rw [numberTransitions, resolveFrom, List.flatMap_cons, ih (source + 1), List.length_append,
      List.length_map]
    exact List.range'_append_1

theorem flatMap_transitions (o : Outline) :
    o.chart.states.flatMap (fun s => (o.chart.node s).transitions) =
      List.range o.chart.transitions.size := by
  rw [size_transitions, List.range_eq_range', ← flatMap_numberTransitions, ← List.flatMap_map,
    Chart.map_node_states, nodes_chart]

end Outline

namespace Chart.WellFormed

variable {c : Chart} (hw : c.WellFormed)

include hw

/-- What lies within a state is the state, within one of its children, one of its histories or its
default entry. -/
theorem within_iff_inside
    (hentry : ∀ {i s}, (c.node s).initial = some i ↔ c.parent i = some s ∧ c.kind i = .initial)
    {x s : Nat} : c.Within x s ↔ x = s ∨ (∃ r ∈ c.children s, c.Within x r) ∨
      x ∈ (c.node s).histories ∨ (c.node s).initial = some x := by
  constructor
  · intro hx
    rcases within_iff.1 hx with rfl | hbelow
    · exact .inl rfl
    · obtain ⟨r, hr, hxr⟩ := hw.exists_child_of_below hbelow
      refine .inr ?_
      by_cases hpseudo : c.isPseudo r = true
      · -- Nothing lies below a history or a default entry.
        have hcomposite : ¬ c.IsComposite r := fun h => by
          rw [h.ordinary.2] at hpseudo
          cases hpseudo
        obtain rfl := hw.eq_of_within hcomposite hxr
        by_cases hinitial : c.kind x = .initial
        · exact .inr (.inr (hentry.2 ⟨hr, hinitial⟩))
        · exact .inr (.inl (hw.mem_histories.2 ⟨hr, isHistory_iff.2 ⟨hpseudo, hinitial⟩⟩))
      · exact .inl ⟨r, hw.mem_children.2 ⟨hr, by simpa using hpseudo⟩, hxr⟩
  · rintro (rfl | ⟨r, hr, hxr⟩ | hx | hx)
    · exact .refl x
    · exact (hw.below_of_within_child (hw.mem_children.1 hr).1 hxr).within
    · exact (hw.below_parent (hw.mem_histories.1 hx).1).within
    · exact (hw.below_parent (hentry.1 hx).1).within

end Chart.WellFormed

namespace Outline.Resolved

open StateOutline

variable {o : Outline} (h : o.Resolved)

include h

/-- A state takes up the numbers of its outline, and states side by side take up one stretch. -/
theorem fills_sites (states : List StateOutline) (start : Nat) (parent : Option Nat) (depth : Nat)
    (hsites : ∀ x ∈ sitesAll start parent depth states, x ∈ o.sites) :
    (∀ x ∈ sitesAll start parent depth states, o.chart.Fills x.number x.outline.size) ∧
      ∀ k, (∃ r ∈ numbersFrom start states, o.chart.Within k r) ↔
        start ≤ k ∧ k < start + sizeAll states := by
  induction states, start, parent, depth using place_induction with
  | nil start parent depth =>
    refine ⟨fun x hx => (nomatch hx), fun k => ?_⟩
    simp only [numbersFrom, List.not_mem_nil, false_and, exists_false, sizeAll, false_iff]
    omega
  | cons x rest hinside hrest =>
    simp only [sitesAll_cons, List.mem_cons, List.mem_append, or_imp, forall_and, forall_eq]
      at hsites ⊢
    obtain ⟨hx, hsinside, hsrest⟩ := hsites
    obtain ⟨hfills, hrun⟩ := hinside hsinside
    obtain ⟨hfills', hrun'⟩ := hrest hsrest
    have hnode := chart_number hx
    have hown : o.chart.Fills x.number x.outline.size := by
      intro k
      have hsize := x.number_add_size
      rw [h.wellFormed.within_iff_inside initial_iff, Chart.children, hnode]
      simp only [Site.node, hrun, List.mem_range'_1]
      have hfirst : x.firstHistory = x.entry + if x.kind = .compound then 1 else 0 := rfl
      have hentry : x.entry = x.number + 1 + sizeAll x.inside := rfl
      split at hfirst
      · next hkind =>
        simp only [hkind, if_true, Option.some.injEq]
        omega
      · next hkind =>
        simp only [hkind, if_false, reduceCtorEq, or_false]
        omega
    refine ⟨⟨hown, hfills, hfills'⟩, fun k => ?_⟩
    simp only [numbersFrom, List.mem_cons, exists_eq_or_imp, hrun', sizeAll, hown k]
    omega

theorem fills_site {x : Site} (hx : x ∈ o.sites) : o.chart.Fills x.number x.outline.size :=
  (h.fills_sites o.states 0 none 0 fun _ hx => hx).1 x hx

theorem extent_site {x : Site} (hx : x ∈ o.sites) :
    o.chart.extent x.number = x.outline.size :=
  (h.fills_site hx).extent_eq h.wellFormed x.outline.size_pos
    ((h.fills_site hx).le_size (lt_size_of_mem_sites hx))

/-- What lies below a node is numbered right behind it. -/
theorem below_iff_extent (x a : Nat) :
    o.chart.Below x a ↔ a < x ∧ x < a + o.chart.extent a := by
  by_cases ha : o.chart.Ordinary a
  · obtain ⟨y, hy, rfl⟩ := ordinary_iff_site.1 ha
    rw [h.extent_site hy]
    exact (h.fills_site hy).below_iff h.wellFormed
  · have hnone : ∀ x, ¬ o.chart.Below x a := fun x hx => ha (h.wellFormed.ordinary_of_below hx)
    have hextent : o.chart.extent a = 1 := by
      rw [Chart.extent, List.countP_eq_zero.2 fun x _ => ?_]
      rw [Chart.isDescendant_iff]
      exact hnone x
    rw [hextent]
    exact iff_of_false (hnone x) (by omega)

/-- A state lies as deep as there are states around it. -/
theorem depth_eq_length_ancestors (s : Nat) :
    (o.chart.node s).depth = (o.chart.ancestors s).length := by
  induction s using Nat.strong_induction_on with
  | _ s ih =>
    cases hp : o.chart.parent s with
    | some p =>
      rw [h.wellFormed.depth_child hp, h.wellFormed.ancestors_of_parent hp, List.length_cons,
        ih p (h.wellFormed.parent_lt hp)]
    | none =>
      rw [Chart.WellFormed.ancestors_of_top hp]
      by_cases hs : s < o.chart.nodes.size
      · obtain ⟨e, he, -, hdepth, -⟩ := h.root (h.mem_topLevel.2 ⟨hs, hp⟩)
        rw [node_chart he]
        exact hdepth
      · rw [Chart.node_absent (Nat.le_of_not_lt hs)]
        rfl

theorem lookup_iff (id : String) (s : Nat) :
    o.chart.lookup id = some s ↔ s < o.chart.nodes.size ∧ o.chart.idOf s = id := by
  constructor
  · exact fun hlookup => ⟨Chart.lt_size_of_lookup hlookup, Chart.idOf_of_lookup hlookup⟩
  · rintro ⟨hs, rfl⟩
    exact Chart.lookup_idOf h.wellFormed hs

theorem forest (hchecked : o.chart.Checked) : o.chart.Forest where
  toWellFormed := h.wellFormed
  lookup := h.lookup_iff
  topLevel_ascending := numbersFrom_ascending 0 o.states
  histories_ascending := o.histories_ascending
  entry _ _ := initial_iff
  entry_targets _ _ _ hkind hparent ht := (hchecked.entry hkind hparent ht).2
  depth := h.depth_eq_length_ancestors
  below := h.below_iff_extent
  transitions := flatMap_transitions o

/-- Nothing is left out of a chart that is placed without problems. -/
theorem inside_eq_children {x : Site} (hx : x ∈ o.sites) : x.inside = x.children := by
  unfold Site.inside StateOutline.inside
  split
  · next hfinal =>
    by_contra hchildren
    have hproblem : .problem (.finalWithChildren x.id) ∈ x.placed := by
      simp [Site.placed, Site.opening, Site.childProblems, hfinal, Ne.symm hchildren]
    exact h.sound _ ((placeAll_perm o.states 0 none 0).mem_iff.2
      (List.mem_flatMap.2 ⟨x, hx, hproblem⟩))
  · rfl

theorem carries {x : Site} (hx : x ∈ o.sites) :
    List.Forall₂ o.chart.Carries (o.chart.node x.number).transitions x.head.transitions := by
  have hlength : x.arrows.length = x.head.transitions.length := List.length_map _
  rw [chart_number hx]
  refine List.forall₂_iff_get.2 ⟨by simp [hlength], fun j hj hj' => ?_⟩
  have hstands := layout_number hx
  have htransition : o.chart.transition (firstArrow o.layout x.number + j) =
      (x.head.transitions[j].arrow).resolve o.ids x.number := by
    rw [transition_chart hstands (show j < x.arrows.length by omega)]
    simp [Site.arrows]
  have hfound := h.arrows _ (List.mem_of_getElem? hstands) x.head.transitions[j].arrow
    (List.mem_map_of_mem (List.getElem_mem hj'))
  simp only [List.get_eq_getElem, List.getElem_range', Nat.one_mul]
  constructor
  all_goals rw [htransition]
  case targets => exact idsOf_resolved hfound
  all_goals rfl

theorem shows {x : Site} (hx : x ∈ o.sites) : o.chart.Shows x.number x.head x.children where
  id := by
    intro id hid
    rw [Chart.idOf, chart_number hx]
    simp [Site.node, Site.id, hid]
  kind := by
    rw [Chart.kind, chart_number hx]
    rfl
  histories := recalls hx
  transitions := h.carries hx
  onEntry := by rw [chart_number hx]; rfl
  onExit := by rw [chart_number hx]; rfl
  data := by rw [chart_number hx]; rfl
  invokes := by rw [chart_number hx]; rfl
  extent := h.extent_site hx

theorem depicts_sites (states : List StateOutline) (start : Nat) (parent : Option Nat)
    (depth : Nat) (hsites : ∀ x ∈ sitesAll start parent depth states, x ∈ o.sites) :
    (∀ x ∈ sitesAll start parent depth states, o.chart.Depicts x.number x.outline) ∧
      List.Forall₂ o.chart.Depicts (numbersFrom start states) states := by
  induction states, start, parent, depth using place_induction with
  | nil start parent depth => exact ⟨fun x hx => (nomatch hx), .nil⟩
  | cons x rest hinside hrest =>
    simp only [sitesAll_cons, List.mem_cons, List.mem_append, or_imp, forall_and, forall_eq]
      at hsites ⊢
    obtain ⟨hx, hsinside, hsrest⟩ := hsites
    obtain ⟨hdepicts, hforall⟩ := hinside hsinside
    obtain ⟨hdepicts', hforall'⟩ := hrest hsrest
    have hown : o.chart.Depicts x.number x.outline := by
      refine .mk (h.shows hx) ?_
      rw [← h.inside_eq_children hx, Chart.children, chart_number hx]
      exact hforall
    exact ⟨⟨hown, hdepicts, hdepicts'⟩, .cons hown hforall'⟩

omit h in
/-- The states of the chart, in the order of their numbers. -/
theorem map_number_sites :
    o.sites.map Site.number = o.chart.states.filter (fun s => !o.chart.isPseudo s) := by
  refine StateSet.ascending_ext (numbers_ascending o.states 0 none 0).1
    (List.pairwise_lt_range.filter _) fun s => ?_
  rw [List.mem_map, ← ordinary_iff_site, Chart.Ordinary, List.mem_filter, Chart.states,
    List.mem_range, Bool.not_eq_true']

theorem depicts_preorder : List.Forall₂ o.chart.Depicts
    (o.chart.states.filter (fun s => !o.chart.isPseudo s)) (preorderAll o.states) := by
  have hdepicts := (h.depicts_sites o.states 0 none 0 fun _ hx => hx).1
  rw [← map_number_sites,
    ← map_outline_sitesAll o.states 0 none 0 fun _ hx => h.inside_eq_children hx]
  exact List.forall₂_map_left_iff.2 (List.forall₂_map_right_iff.2 (List.forall₂_same.2 hdepicts))

end Outline.Resolved

namespace Outline

/-- The chart that is handed out for an outline is a forest, and it is the forest of the outline:
its roots depict the states written at the top level, and its states, in the order of their
numbers, all states of the outline in pre-order. -/
theorem forest_of_build {o : Outline} {c : Chart} (hbuild : o.build = .ok c) :
    c.Forest ∧ List.Forall₂ c.Depicts c.topLevel o.states ∧
      List.Forall₂ c.Depicts (c.states.filter (fun s => !c.isPseudo s))
        (StateOutline.preorderAll o.states) := by
  obtain ⟨hresolved, rfl, hproblems⟩ := resolved_of_build hbuild
  have hchecked := checked_of_problems hresolved.wellFormed hproblems
  exact ⟨hresolved.forest hchecked,
    (hresolved.depicts_sites o.states 0 none 0 fun _ hx => hx).2, hresolved.depicts_preorder⟩

/-- The player has its eight states in pre-order, and behind the track with its default entry comes
the sound. -/
theorem forest_of_build_player :
    List.Forall₂ player.chart.Depicts [0, 1, 2, 3, 5, 6, 7, 10]
        (StateOutline.preorderAll player.states) ∧
      ∀ x, player.chart.Below x 1 ↔ 1 < x ∧ x < 5 := by
  obtain ⟨hforest, -, hpreorder⟩ := forest_of_build build_player
  have hstates : player.chart.states.filter (fun s => !player.chart.isPseudo s) =
      [0, 1, 2, 3, 5, 6, 7, 10] := by decide +kernel
  have hextent : player.chart.extent 1 = 4 := by decide +kernel
  rw [hstates] at hpreorder
  refine ⟨hpreorder, fun x => ?_⟩
  rw [hforest.below, hextent]

end Outline

end Statechart
