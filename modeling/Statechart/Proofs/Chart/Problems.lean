import Mathlib.Data.List.Count
import Mathlib.Data.List.Dedup
import Statechart.Proofs.Chart.Sites

/-!
What can be wrong with an outline, read off its sites, and what of it is told. The problems are of
two sorts: those that show when numbers and names are given out, and those that show when every
name stands for a node. No chart is handed out as long as there is one, and then all problems of
its sort are told; but of the second sort none is told as long as there is one of the first.
-/

namespace Statechart

open StateOutline

namespace Site

/-- Its histories with their numbers. -/
def memories (x : Site) : List (HistoryOutline × Nat) :=
  x.head.histories.zipIdx x.firstHistory

def memoryId (e : HistoryOutline × Nat) : String :=
  e.1.id.getD (generatedId e.2)

/-- Its nodes by id, each with the arrows that start there: the state itself, its default entry if
it is compound, and its histories. -/
def anchors (x : Site) : List (String × List Arrow) :=
  (x.id, x.arrows) ::
    ((if x.kind = .compound then [(generatedId x.entry, [x.entryArrow])] else []) ++
      x.memories.map fun e => (memoryId e, [x.historyArrow e.1]))

/-- What it has that does not go with its kind. -/
def misfits (x : Site) : List Problem :=
  x.childProblems ++
    (if x.kind ≠ .compound ∧ x.head.initial.isSome then [.initialOnNonCompound x.id] else []) ++
    (if x.kind.isAtomic then x.memories.map fun e => .historyOnAtomicState (memoryId e) x.id
      else [])

/-- The numbers of its nodes. -/
def numbers (x : Site) : List Nat :=
  x.number :: ((if x.kind = .compound then [x.entry] else []) ++
    List.range' x.firstHistory x.head.histories.length)

end Site

namespace Outline

variable (o : Outline)

def anchors : List (String × List Arrow) :=
  o.sites.flatMap Site.anchors

/-- The ids of all nodes. -/
def names : List String :=
  o.anchors.map Prod.fst

/-- The names among `targets` that no node has. -/
def strays (owner : String) (targets : List Ref) : List Problem :=
  targets.filterMap (Ref.problem? o.names owner)

/-- The problems that show when numbers and names are given out: ids that are given again, what
does not go with the kind of a state, and names that no node has. -/
def misplaced : List Problem :=
  (o.names.diff o.names.dedup).map .duplicateId ++ o.sites.flatMap Site.misfits ++
    o.anchors.flatMap (fun anchor => anchor.2.flatMap fun a => o.strays anchor.1 a.targets) ++
    o.strays startOwner o.start

/-- What `targets` stand for. -/
def aims (targets : List Ref) : List Nat :=
  targets.filterMap (Ref.number? o.ids)

/-- The problems of the default entry of a compound state. -/
def entryProblems (x : Site) : List Problem :=
  ((o.aims x.entryArrow.targets).filter (fun s => !o.chart.isDescendant s x.number)).map
      (fun s => .illegalInitial x.id (o.chart.idOf s)) ++
    o.chart.targetProblems x.id (o.aims x.entryArrow.targets)

/-- The problems of a history of the site `x`. -/
def memoryProblems (x : Site) (e : HistoryOutline × Nat) : List Problem :=
  let aims := o.aims (x.historyArrow e.1).targets
  match e.1.depth with
  | .shallow =>
    (aims.filter (fun s => !decide (o.chart.parent s = some x.number))).map
      (fun s => .illegalHistoryDefault (Site.memoryId e) x.id (o.chart.idOf s) "children")
  | .deep =>
    (aims.filter (fun s => !o.chart.isDescendant s x.number)).map
      (fun s => .illegalHistoryDefault (Site.memoryId e) x.id (o.chart.idOf s) "descendants")

/-- The problems of a site that show when every name stands for a node: services without a type,
targets that cannot be active together, and defaults that lead elsewhere. -/
def siteProblems (x : Site) : List Problem :=
  (x.head.invokes.filter (fun i => (Text.trim i.kind).isEmpty)).map
      (fun _ => .invokeWithoutType x.id) ++
    x.arrows.flatMap (fun a => o.chart.targetProblems x.id (o.aims a.targets)) ++
    (if x.kind = .compound then o.entryProblems x else []) ++
    x.memories.flatMap (o.memoryProblems x)

def misdirected : List Problem :=
  o.chart.targetProblems startOwner (o.aims o.start) ++ o.sites.flatMap o.siteProblems

end Outline

namespace Placed

def problem? : Placed → Option Problem
  | .node _ _ => none
  | .problem p => some p

/-- The names that stand in `seen` or before in the list. -/
def repeatedFrom (seen : List String) : List String → List String
  | [] => []
  | name :: rest =>
    if name ∈ seen then name :: repeatedFrom seen rest else repeatedFrom (name :: seen) rest

theorem count_repeatedFrom (seen names : List String) (name : String) :
    (repeatedFrom seen names).count name =
      names.count name - if name ∈ seen then 0 else 1 := by
  induction names generalizing seen with
  | nil => simp [repeatedFrom]
  | cons first rest ih =>
    rw [repeatedFrom]
    by_cases hname : first = name
    · subst hname
      split
      · next hseen => simp [ih, hseen]
      · next hseen => simp [ih, hseen]
    · split
      · simp [ih, hname]
      · simp [ih, hname, Ne.symm hname]

/-- Each name is repeated once less often than it is given. -/
theorem repeatedFrom_perm {names names' : List String} (h : names.Perm names') :
    (repeatedFrom [] names).Perm (names'.diff names'.dedup) := by
  refine List.perm_iff_count.2 fun name => ?_
  rw [count_repeatedFrom, List.count_diff, List.count_dedup, ← h.count_eq name]
  by_cases hname : name ∈ names'
  · simp [hname]
  · simp [hname, List.count_eq_zero.2 (mt h.mem_iff.1 hname)]

theorem problemsFrom_perm (seen : List String) (placed : List Placed) :
    (problemsFrom seen placed).Perm
      ((repeatedFrom seen ((nodesOf placed).map (·.1.id))).map .duplicateId ++
        placed.filterMap problem?) := by
  induction placed generalizing seen with
  | nil => exact .refl _
  | cons item rest ih =>
    cases item with
    | problem p => exact ((ih seen).cons p).trans List.perm_middle.symm
    | node n arrows =>
      rw [problemsFrom, show (nodesOf (.node n arrows :: rest)).map (·.1.id) =
        n.id :: (nodesOf rest).map (·.1.id) from rfl, repeatedFrom]
      split
      · exact (ih seen).cons _
      · exact ih _

end Placed

section Placing

theorem filterMap_problem?_map (problems : List Problem) :
    (problems.map Placed.problem).filterMap Placed.problem? = problems := by
  induction problems with
  | nil => rfl
  | cons p rest ih => exact congrArg (p :: ·) ih

theorem nodesOf_placeHistories (owner : Node) (i : Nat) (defaults : List Ref) (start : Nat)
    (histories : List HistoryOutline) :
    nodesOf (placeHistories owner i defaults start histories) =
      (histories.zipIdx start).map fun e => (historyNode owner i e.2 e.1,
        [.default (DefaultOutline.targetsOr e.1.default defaults)
          (DefaultOutline.actionsOf e.1.default)]) := by
  induction histories generalizing start with
  | nil => rfl
  | cons h rest ih =>
    rw [placeHistories, nodesOf_append, ← List.singleton_append, nodesOf_append,
      nodesOf_problem_ite, List.append_nil, ih, List.zipIdx_cons, List.map_cons]
    rfl

theorem problems_placeHistories (owner : Node) (i : Nat) (defaults : List Ref) (start : Nat)
    (histories : List HistoryOutline) :
    (placeHistories owner i defaults start histories).filterMap Placed.problem? =
      if owner.kind.isAtomic then
        (histories.zipIdx start).map fun e => .historyOnAtomicState (Site.memoryId e) owner.id
      else [] := by
  induction histories generalizing start with
  | nil => simp [placeHistories]
  | cons h rest ih =>
    rw [placeHistories, List.filterMap_append, ih]
    by_cases hatomic : owner.kind.isAtomic = true
    · rw [if_pos hatomic, if_pos hatomic, if_pos hatomic, List.zipIdx_cons, List.map_cons]
      rfl
    · rw [if_neg hatomic, if_neg hatomic, if_neg hatomic]
      rfl

variable (x : Site)

/-- The nodes of a site are its anchors. -/
theorem anchors_placed : (nodesOf x.placed).map (fun e => (e.1.id, e.2)) = x.anchors := by
  have hentry : (nodesOf (if x.kind = .compound then [.node x.entryNode [x.entryArrow]]
      else if x.head.initial.isSome then [.problem (.initialOnNonCompound x.id)] else [])).map
        (fun e => (e.1.id, e.2)) =
      if x.kind = .compound then [(generatedId x.entry, [x.entryArrow])] else [] := by
    split
    · rfl
    · rw [nodesOf_problem_ite]
      rfl
  rw [Site.placed, nodesOf_append, nodesOf_opening, Site.closing, nodesOf_append,
    nodesOf_placeHistories, List.map_append, List.map_append, hentry, List.map_map]
  rfl

theorem misfits_placed : x.placed.filterMap Placed.problem? = x.misfits := by
  have hentry : (if x.kind = .compound then [Placed.node x.entryNode [x.entryArrow]]
      else if x.head.initial.isSome then [.problem (.initialOnNonCompound x.id)]
        else []).filterMap Placed.problem? =
      if x.kind ≠ .compound ∧ x.head.initial.isSome then [.initialOnNonCompound x.id] else [] := by
    by_cases hkind : x.kind = .compound <;> by_cases hinitial : x.head.initial.isSome = true <;>
      simp [hkind, hinitial, Placed.problem?]
  rw [Site.placed, List.filterMap_append, Site.opening, Site.closing, List.filterMap_append,
    hentry, problems_placeHistories, List.filterMap_cons_none rfl, filterMap_problem?_map,
    ← List.append_assoc]
  rfl

end Placing

namespace Outline

variable (o : Outline)

theorem anchors_perm : (o.layout.map (fun e => (e.1.id, e.2))).Perm o.anchors := by
  have hperm := ((placeAll_perm o.states 0 none 0).filterMap Placed.node?).map
    (fun e => (e.1.id, e.2))
  rw [List.filterMap_flatMap, List.map_flatMap] at hperm
  exact hperm.trans (.of_eq (List.flatMap_congr fun x _ => anchors_placed x))

theorem ids_perm : o.ids.Perm o.names := by
  have hperm := (anchors_perm o).map Prod.fst
  rw [List.map_map] at hperm
  exact hperm

theorem misfits_perm :
    (o.placed.filterMap Placed.problem?).Perm (o.sites.flatMap Site.misfits) := by
  have hperm := (placeAll_perm o.states 0 none 0).filterMap Placed.problem?
  rw [List.filterMap_flatMap] at hperm
  exact hperm.trans (.of_eq (List.flatMap_congr fun x _ => misfits_placed x))

/-- A reference is a stray exactly if no node has its name, in whatever order the nodes stand. -/
theorem problem?_ids (owner : String) : Ref.problem? o.ids owner = Ref.problem? o.names owner := by
  funext r
  cases r with
  | number s => rfl
  | id name => simp only [Ref.problem?, (ids_perm o).mem_iff]

/-- The problems that placement tells are those there are. -/
theorem placementProblems_perm : o.placementProblems.Perm o.misplaced := by
  have hrepeated := (Placed.repeatedFrom_perm (ids_perm o)).map Problem.duplicateId
  have hplaced : (Placed.problemsFrom [] o.placed).Perm
      ((o.names.diff o.names.dedup).map .duplicateId ++ o.sites.flatMap Site.misfits) :=
    (Placed.problemsFrom_perm [] o.placed).trans (hrepeated.append (misfits_perm o))
  have hstrays : (o.layout.flatMap fun n =>
      n.2.flatMap fun a => a.targets.filterMap (Ref.problem? o.ids n.1.id)).Perm
      (o.anchors.flatMap fun anchor => anchor.2.flatMap fun a => o.strays anchor.1 a.targets) := by
    have hperm := (anchors_perm o).flatMap_right
      fun anchor => anchor.2.flatMap fun a => o.strays anchor.1 a.targets
    rw [List.flatMap_map] at hperm
    simp only [problem?_ids]
    exact hperm
  have hstart : o.start.filterMap (Ref.problem? o.ids startOwner) =
      o.strays startOwner o.start := by
    rw [problem?_ids]
    rfl
  exact (hplaced.append hstrays).append (.of_eq hstart)

theorem numbers_perm (states : List StateOutline) (start : Nat) (parent : Option Nat)
    (depth : Nat) : (List.range' start (sizeAll states)).Perm
      ((sitesAll start parent depth states).flatMap Site.numbers) := by
  induction states, start, parent, depth using place_induction with
  | nil start parent depth => exact .refl _
  | cons x rest hinside hrest =>
    have hown : List.range' x.number x.outline.size =
        x.number :: (List.range' (x.number + 1) (sizeAll x.inside) ++ x.numbers.tail) := by
      have hsize := x.number_add_size
      have hfirst : x.firstHistory = x.entry + if x.kind = .compound then 1 else 0 := rfl
      have hentry : x.entry = x.number + 1 + sizeAll x.inside := rfl
      unfold Site.numbers
      rw [List.tail_cons]
      split at hfirst
      · next hkind =>
        rw [if_pos hkind, hfirst, hentry, show x.outline.size =
          sizeAll x.inside + (x.head.histories.length + 1) + 1 by omega, List.range'_succ,
          ← List.range'_append_1, List.range'_succ]
        rfl
      · next hkind =>
        rw [if_neg hkind, hfirst, hentry, show x.outline.size =
          sizeAll x.inside + x.head.histories.length + 1 by omega, List.range'_succ,
          ← List.range'_append_1]
        rfl
    rw [sizeAll, ← List.range'_append_1, hown, sitesAll_cons, List.flatMap_cons,
      List.flatMap_append]
    refine List.Perm.trans (List.Perm.append ?_ hrest) (.of_eq (List.append_assoc _ _ _))
    exact (List.perm_append_comm.trans (hinside.append_left x.numbers.tail)).cons x.number

variable {o} {x : Site}

theorem transitions_map {k : Nat} {e : Node × List Arrow} (he : o.layout[k]? = some e) :
    (List.range' (firstArrow o.layout k) e.2.length).map (fun t => (o.chart.transition t).targets) =
      e.2.map (fun a => o.aims a.targets) := by
  refine List.ext_getElem (by simp) fun j hj hj' => ?_
  have hlt : j < e.2.length := by simpa using hj'
  simp only [List.getElem_map, List.getElem_range', Nat.one_mul]
  rw [transition_chart he hlt]
  rfl

theorem nodeProblems_number (hx : x ∈ o.sites) :
    o.chart.nodeProblems (o.chart.node x.number) =
      (x.head.invokes.filter (fun i => (Text.trim i.kind).isEmpty)).map
          (fun _ => .invokeWithoutType x.id) ++
        x.arrows.flatMap (fun a => o.chart.targetProblems x.id (o.aims a.targets)) := by
  have hordinary : x.kind.isPseudo = false := kind_ordinary x.head _
  have htransitions := congrArg (List.flatMap (o.chart.targetProblems x.id))
    (transitions_map (layout_number hx))
  rw [List.flatMap_map, List.flatMap_map] at htransitions
  rw [chart_number hx]
  unfold Chart.nodeProblems
  cases hkind : x.kind
  all_goals simp_all [NodeKind.isPseudo, Site.node]

theorem idOf_number (hx : x ∈ o.sites) : o.chart.idOf x.number = x.id := by
  rw [Chart.idOf, chart_number hx]
  rfl

/-- The one transition of a node leads where its one arrow does. -/
theorem targets_firstArrow {k : Nat} {n : Node} {a : Arrow} (he : o.layout[k]? = some (n, [a])) :
    (o.chart.transition (firstArrow o.layout k)).targets = o.aims a.targets :=
  congrArg Transition.targets (transition_chart he (Nat.zero_lt_one))

theorem nodeProblems_entry (hx : x ∈ o.sites) (hkind : x.kind = .compound) :
    o.chart.nodeProblems (o.chart.node x.entry) = o.entryProblems x := by
  have htargets := targets_firstArrow (layout_entry hx hkind)
  rw [chart_entry hx hkind]
  simp only [Chart.nodeProblems, Site.entryNode, Chart.initialProblems, List.flatMap_cons,
    List.flatMap_nil, List.append_nil, htargets, idOf_number hx]
  rfl

theorem nodeProblems_history (hx : x ∈ o.sites) {j : Nat} {h : HistoryOutline}
    (hj : x.head.histories[j]? = some h) :
    o.chart.nodeProblems (o.chart.node (x.firstHistory + j)) =
      o.memoryProblems x (h, x.firstHistory + j) := by
  have htargets := targets_firstArrow (layout_history hx hj)
  rw [chart_history hx hj]
  simp only [Chart.nodeProblems, historyNode, Chart.historyProblems, List.head?_cons, htargets,
    idOf_number hx]
  unfold memoryProblems
  cases h.depth <;> rfl

/-- The problems that the checks of the chart find at the nodes of a site. -/
theorem nodeProblems_site (hx : x ∈ o.sites) :
    x.numbers.flatMap (fun s => o.chart.nodeProblems (o.chart.node s)) = o.siteProblems x := by
  have hentry : (if x.kind = .compound then [x.entry] else []).flatMap
      (fun s => o.chart.nodeProblems (o.chart.node s)) =
      if x.kind = .compound then o.entryProblems x else [] := by
    split
    · next hkind => rw [List.flatMap_singleton, nodeProblems_entry hx hkind]
    · rfl
  have hmemories : (List.range' x.firstHistory x.head.histories.length).flatMap
      (fun s => o.chart.nodeProblems (o.chart.node s)) =
      x.memories.flatMap (o.memoryProblems x) := by
    rw [← List.zipIdx_map_snd x.firstHistory x.head.histories, List.flatMap_map]
    refine List.flatMap_congr fun e he => ?_
    obtain ⟨h, k⟩ := e
    obtain ⟨hle, hj⟩ := List.mk_mem_zipIdx_iff_le_and_getElem?_sub.1 he
    obtain ⟨j, rfl⟩ := Nat.exists_eq_add_of_le hle
    rw [Nat.add_sub_cancel_left] at hj
    exact nodeProblems_history hx hj
  rw [Site.numbers, List.flatMap_cons, List.flatMap_append, nodeProblems_number hx, hentry,
    hmemories, ← List.append_assoc]
  rfl

variable (o) in
/-- The problems that the checks of the chart tell are those there are. -/
theorem problems_perm : o.chart.problems.Perm o.misdirected := by
  have hnumbers : o.chart.states.Perm (o.sites.flatMap Site.numbers) := by
    rw [Chart.states, size_nodes, length_layout, List.range_eq_range']
    exact numbers_perm o.states 0 none 0
  have hnodes : o.chart.nodes.toList.flatMap o.chart.nodeProblems =
      o.chart.states.flatMap (fun s => o.chart.nodeProblems (o.chart.node s)) := by
    rw [← Chart.map_node_states, List.flatMap_map]
  have hsites : (o.sites.flatMap Site.numbers).flatMap
      (fun s => o.chart.nodeProblems (o.chart.node s)) = o.sites.flatMap o.siteProblems := by
    rw [List.flatMap_assoc]
    exact List.flatMap_congr fun x hx => nodeProblems_site hx
  rw [Chart.problems, hnodes, misdirected, ← hsites]
  exact (hnumbers.flatMap_right _).append_left _

theorem build_of_placementProblems (hstates : o.states ≠ []) (h : o.placementProblems ≠ []) :
    o.build = .error (.invalid o.placementProblems) := by
  rw [build, if_neg (by simpa using hstates)]
  split
  · next hnone => exact absurd hnone h
  · rfl

theorem build_of_problems (hstates : o.states ≠ []) (hplacement : o.placementProblems = [])
    (h : o.chart.problems ≠ []) : o.build = .error (.invalid o.chart.problems) := by
  rw [build, if_neg (by simpa using hstates), hplacement]
  dsimp only
  split
  · next hnone => exact absurd hnone h
  · rfl

/-- What is told of an outline that is not built. As long as a name or a state is misplaced all
problems of this sort are told, each as often as it occurs, and no other; when none is, all of the
other sort are. Where there is no problem the chart is handed out. -/
theorem build_tells (o : Outline) (hstates : o.states ≠ []) :
    (o.misplaced ≠ [] → ∃ told, o.build = .error (.invalid told) ∧ told.Perm o.misplaced) ∧
      (o.misplaced = [] → o.misdirected ≠ [] →
        ∃ told, o.build = .error (.invalid told) ∧ told.Perm o.misdirected) ∧
      (o.misplaced = [] → o.misdirected = [] → o.build = .ok o.chart) := by
  have hplacement := placementProblems_perm o
  have hproblems := problems_perm o
  refine ⟨fun hsome => ?_, fun hnone hsome => ?_, fun hnone hnone' => ?_⟩
  · have hne : o.placementProblems ≠ [] := fun h => hsome (h ▸ hplacement).nil_eq.symm
    exact ⟨_, build_of_placementProblems hstates hne, hplacement⟩
  · rw [hnone] at hplacement
    have hne : o.chart.problems ≠ [] := fun h => hsome (h ▸ hproblems).nil_eq.symm
    exact ⟨_, build_of_problems hstates hplacement.eq_nil hne, hproblems⟩
  · rw [hnone] at hplacement
    rw [hnone'] at hproblems
    exact build_eq_ok (by simpa using hstates) hplacement.eq_nil hproblems.eq_nil

/-- A state that leads nowhere, one without regions that should have some, and one with a service
without a type. -/
def jumble : Outline where
  name := none
  datamodel := none
  initial := []
  states := [
    .mk (.named "lost" .plain [] [.on "go" "nowhere"]) [],
    .mk (.named "hollow" .parallel [] []) [],
    .mk { StateHead.named "mute" .plain [] [] with invokes := [⟨none, " ", none, []⟩] } []]
  data := []

/-- What is wrong with the first two is told. -/
theorem build_tells_jumble : ∃ told, jumble.build = .error (.invalid told) ∧
    told.Perm [.emptyParallel "hollow", .unresolvedTarget "lost" "nowhere"] := by
  have hmisplaced : jumble.misplaced =
      [.emptyParallel "hollow", .unresolvedTarget "lost" "nowhere"] := by decide +kernel
  rw [← hmisplaced]
  exact (build_tells jumble (by simp [jumble])).1 (by rw [hmisplaced]; simp)

/-- Of the service without a type nothing is told as long as the others are wrong. -/
theorem exists_problem_untold : ¬ ∀ (o : Outline) (told : List Problem), o.states ≠ [] →
    o.build = .error (.invalid told) → ∀ x ∈ o.sites, ∀ i ∈ x.head.invokes,
      (Text.trim i.kind).isEmpty = true → .invokeWithoutType x.id ∈ told := by
  intro h
  have hstates : jumble.states ≠ [] := by simp [jumble]
  have htold := h jumble _ hstates
    (build_of_placementProblems hstates (by decide +kernel))
    ⟨2, none, 0,
      { StateHead.named "mute" .plain [] [] with invokes := [⟨none, " ", none, []⟩] }, []⟩
    (by simp [sites, sitesAll, StateOutline.sites, jumble, StateHead.named, size, sizeAll,
      StateHead.kind]) _ (List.mem_singleton.2 rfl) (by decide +kernel)
  exact absurd htold (by decide +kernel)

end Outline

end Statechart
