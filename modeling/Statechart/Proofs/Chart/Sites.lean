import Statechart.Proofs.Chart.Build

/-!
The sites of an outline: its states in pre-order, each with the number that placement gives to
it. A site takes up its own node, that of its default entry and those of its histories, and
between the first and the others stand the sites inside it. Every node is taken up by one site,
and what it is can be read off there, whatever is wrong with the outline.
-/

namespace Statechart

/-- A state of an outline, with its number and with the number and the depth that placement hands
on to it. -/
structure Site where
  number : Nat
  parent : Option Nat
  depth : Nat
  head : StateHead
  /-- The states written inside it; those of a final state are left out when it is placed. -/
  children : List StateOutline

namespace StateOutline

mutual
/-- A state and the states inside it that are placed, itself at `start`. -/
def sites (start : Nat) (parent : Option Nat) (depth : Nat) : StateOutline → List Site
  | .mk head children =>
    ⟨start, parent, depth, head, children⟩ ::
      if head.shape = .final then []
      else sitesAll (start + 1) (some start) (depth + 1) children
def sitesAll (start : Nat) (parent : Option Nat) (depth : Nat) : List StateOutline → List Site
  | [] => []
  | s :: rest => sites start parent depth s ++ sitesAll (start + s.size) parent depth rest
end

/-- The node of the history `h` of the state `owner`. -/
def historyNode (owner : Node) (ownerIndex number : Nat) (h : HistoryOutline) : Node :=
  { Node.absent with
    id := h.id.getD (generatedId number), kind := .history h.depth, parent := some ownerIndex,
    depth := owner.depth + 1 }

end StateOutline

open StateOutline

def Outline.sites (o : Outline) : List Site :=
  sitesAll 0 none 0 o.states

namespace Site

def outline (x : Site) : StateOutline :=
  .mk x.head x.children

def id (x : Site) : String :=
  x.head.id.getD (generatedId x.number)

def kind (x : Site) : NodeKind :=
  x.head.kind (!x.children.isEmpty)

/-- The states inside it that are placed. -/
def inside (x : Site) : List StateOutline :=
  StateOutline.inside x.head x.children

/-- The number after those of the states inside, which its default entry has if there is one. -/
def entry (x : Site) : Nat :=
  x.number + 1 + sizeAll x.inside

def firstHistory (x : Site) : Nat :=
  x.entry + if x.kind = .compound then 1 else 0

/-- Where its histories lead that do not say so themselves, and its default entry, if it is
compound. -/
def defaults (x : Site) : List Ref :=
  if x.kind = .compound then DefaultOutline.targetsOr x.head.initial [.number (x.number + 1)]
  else (numbersFrom (x.number + 1) x.inside).map .number

def node (x : Site) : Node where
  id := x.id
  kind := x.kind
  parent := x.parent
  depth := x.depth
  children := numbersFrom (x.number + 1) x.inside
  initial := if x.kind = .compound then some x.entry else none
  histories := List.range' x.firstHistory x.head.histories.length
  transitions := []
  onEntry := x.head.onEntry
  onExit := x.head.onExit
  data := x.head.data
  invokes := x.head.invokes

def arrows (x : Site) : List Arrow :=
  x.head.transitions.map TransitionOutline.arrow

def entryNode (x : Site) : Node :=
  { Node.absent with
    id := generatedId x.entry, kind := .initial, parent := some x.number, depth := x.depth + 1 }

def entryArrow (x : Site) : Arrow :=
  .default x.defaults (DefaultOutline.actionsOf x.head.initial)

def historyArrow (x : Site) (h : HistoryOutline) : Arrow :=
  .default (DefaultOutline.targetsOr h.default x.defaults) (DefaultOutline.actionsOf h.default)

/-- What is wrong with the states written inside it, if anything. -/
def childProblems (x : Site) : List Problem :=
  (if x.head.shape = .final ∧ x.children ≠ [] then [.finalWithChildren x.id] else []) ++
    (if x.kind = .parallel ∧ x.children = [] then [.emptyParallel x.id] else [])

/-- What is laid out of it before the states inside it. -/
def opening (x : Site) : List Placed :=
  .node x.node x.arrows :: x.childProblems.map .problem

/-- What is laid out of it behind the states inside it. -/
def closing (x : Site) : List Placed :=
  (if x.kind = .compound then [.node x.entryNode [x.entryArrow]]
    else if x.head.initial.isSome then [.problem (.initialOnNonCompound x.id)]
    else []) ++
    placeHistories x.node x.number x.defaults x.firstHistory x.head.histories

theorem ite_inside {α : Type} (x : Site) (f : List StateOutline → α) :
    (if x.head.shape = .final then f [] else f x.children) = f x.inside := by
  unfold inside StateOutline.inside
  split <;> rfl

/-- The nodes that a state takes up. -/
theorem number_add_size (x : Site) :
    x.number + x.outline.size = x.firstHistory + x.head.histories.length := by
  have hsize : (if x.head.shape = .final then 0 else sizeAll x.children) = sizeAll x.inside :=
    x.ite_inside sizeAll
  rw [outline, size, hsize]
  unfold firstHistory entry kind
  omega

theorem place_eq (x : Site) : place x.number x.parent x.depth x.outline =
    x.opening ++ placeAll (x.number + 1) (some x.number) (x.depth + 1) x.inside ++ x.closing := by
  have hnumbers : (if x.head.shape = .final then [] else numbersFrom (x.number + 1) x.children) =
      numbersFrom (x.number + 1) x.inside := x.ite_inside (numbersFrom (x.number + 1))
  have hsize : (if x.head.shape = .final then 0 else sizeAll x.children) = sizeAll x.inside :=
    x.ite_inside sizeAll
  have hplace : (if x.head.shape = .final then []
      else placeAll (x.number + 1) (some x.number) (x.depth + 1) x.children) =
      placeAll (x.number + 1) (some x.number) (x.depth + 1) x.inside :=
    x.ite_inside (placeAll (x.number + 1) (some x.number) (x.depth + 1))
  have hfinal : (if x.head.shape = .final ∧ x.children ≠ [] then
        [Placed.problem (.finalWithChildren x.id)] else []) =
      (if x.head.shape = .final ∧ x.children ≠ [] then
        [Problem.finalWithChildren x.id] else []).map .problem := by
    split <;> rfl
  have hparallel : (if x.kind = .parallel ∧ x.children = [] then
        [Placed.problem (.emptyParallel x.id)] else []) =
      (if x.kind = .parallel ∧ x.children = [] then [Problem.emptyParallel x.id]
        else []).map .problem := by
    split <;> rfl
  rw [opening, childProblems, List.map_append, ← hfinal, ← hparallel]
  simp only [outline, place, decide_eq_true_eq, hnumbers, hsize, hplace, Bool.and_eq_true,
    Bool.not_eq_true', List.isEmpty_eq_false_iff, List.isEmpty_iff]
  simp only [List.append_assoc, List.cons_append, List.nil_append]
  rfl

/-- What is laid out of it alone. -/
def placed (x : Site) : List Placed :=
  x.opening ++ x.closing

/-- The numbers that a site takes up. -/
inductive Takes (x : Site) : Nat → Prop where
  | own : x.Takes x.number
  | entry (h : x.kind = .compound) : x.Takes x.entry
  | history {j : Nat} {h : HistoryOutline} (hj : x.head.histories[j]? = some h) :
    x.Takes (x.firstHistory + j)

end Site

namespace StateOutline

theorem placeAll_cons (x : Site) (rest : List StateOutline) :
    placeAll x.number x.parent x.depth (x.outline :: rest) =
      (x.opening ++ placeAll (x.number + 1) (some x.number) (x.depth + 1) x.inside ++ x.closing) ++
        placeAll (x.number + x.outline.size) x.parent x.depth rest := by
  rw [placeAll, x.place_eq]

theorem sitesAll_cons (x : Site) (rest : List StateOutline) :
    sitesAll x.number x.parent x.depth (x.outline :: rest) =
      x :: (sitesAll (x.number + 1) (some x.number) (x.depth + 1) x.inside ++
        sitesAll (x.number + x.outline.size) x.parent x.depth rest) := by
  have hinside : (if x.head.shape = .final then []
      else sitesAll (x.number + 1) (some x.number) (x.depth + 1) x.children) =
      sitesAll (x.number + 1) (some x.number) (x.depth + 1) x.inside :=
    x.ite_inside (sitesAll (x.number + 1) (some x.number) (x.depth + 1))
  rw [sitesAll, Site.outline, sites, hinside]
  rfl

mutual

theorem place_induction_cons {P : List StateOutline → Nat → Option Nat → Nat → Prop}
    (nil : ∀ start parent depth, P [] start parent depth)
    (cons : ∀ (x : Site) (rest : List StateOutline),
      P x.inside (x.number + 1) (some x.number) (x.depth + 1) →
      P rest (x.number + x.outline.size) x.parent x.depth →
      P (x.outline :: rest) x.number x.parent x.depth)
    (s : StateOutline) (start : Nat) (parent : Option Nat) (depth : Nat)
    (rest : List StateOutline) (hrest : P rest (start + s.size) parent depth) :
    P (s :: rest) start parent depth := by
  match s with
  | .mk head children =>
    refine cons ⟨start, parent, depth, head, children⟩ rest ?_ hrest
    unfold Site.inside inside
    dsimp only
    split
    · exact nil _ _ _
    · exact place_induction nil cons children _ _ _

/-- Placement goes through states side by side, each with those inside it. What holds of states
when it holds of those inside the first and of those behind it holds of all states. -/
theorem place_induction {P : List StateOutline → Nat → Option Nat → Nat → Prop}
    (nil : ∀ start parent depth, P [] start parent depth)
    (cons : ∀ (x : Site) (rest : List StateOutline),
      P x.inside (x.number + 1) (some x.number) (x.depth + 1) →
      P rest (x.number + x.outline.size) x.parent x.depth →
      P (x.outline :: rest) x.number x.parent x.depth)
    (states : List StateOutline) (start : Nat) (parent : Option Nat) (depth : Nat) :
    P states start parent depth := by
  match states with
  | [] => exact nil start parent depth
  | s :: rest =>
    exact place_induction_cons nil cons s start parent depth rest
      (place_induction nil cons rest _ _ _)

end

/-- What is placed is what is placed of the sites. -/
theorem placeAll_perm (states : List StateOutline) (start : Nat) (parent : Option Nat)
    (depth : Nat) : (placeAll start parent depth states).Perm
      ((sitesAll start parent depth states).flatMap Site.placed) := by
  induction states, start, parent, depth using place_induction with
  | nil start parent depth => exact .refl _
  | cons x rest hinside hrest =>
    rw [placeAll_cons, sitesAll_cons, List.flatMap_cons, List.flatMap_append, ← List.append_assoc]
    refine List.Perm.append ?_ hrest
    let around := placeAll (x.number + 1) (some x.number) (x.depth + 1) x.inside
    calc x.opening ++ around ++ x.closing
        = x.opening ++ (around ++ x.closing) := List.append_assoc _ _ _
      List.Perm _ (x.opening ++ (x.closing ++ around)) := List.perm_append_comm.append_left _
      _ = x.placed ++ around := (List.append_assoc _ _ _).symm
      List.Perm _ _ := hinside.append_left _

/-- Every number is taken up by a site. -/
theorem exists_takes (states : List StateOutline) (start : Nat) (parent : Option Nat)
    (depth : Nat) {k : Nat} (hk : start ≤ k) (hk' : k < start + sizeAll states) :
    ∃ x ∈ sitesAll start parent depth states, x.Takes k := by
  induction states, start, parent, depth using place_induction generalizing k with
  | nil start parent depth =>
    simp only [sizeAll] at hk'
    omega
  | cons x rest hinside hrest =>
    rw [sizeAll] at hk'
    rw [sitesAll_cons]
    have hsize := x.number_add_size
    rcases Nat.lt_or_ge k (x.number + x.outline.size) with hlt | hge
    · rcases Nat.lt_or_ge k x.entry with hlt' | hge'
      · rcases Nat.eq_or_lt_of_le hk with rfl | hgt
        · exact ⟨x, List.mem_cons_self, .own⟩
        · obtain ⟨y, hy, htakes⟩ := hinside hgt hlt'
          exact ⟨y, List.mem_cons_of_mem x (List.mem_append_left _ hy), htakes⟩
      · refine ⟨x, List.mem_cons_self, ?_⟩
        rcases Nat.lt_or_ge k x.firstHistory with hlt'' | hge''
        · have hkind : x.kind = .compound := by
            by_contra hkind
            rw [Site.firstHistory, if_neg hkind] at hlt''
            omega
          rw [Site.firstHistory, if_pos hkind] at hlt''
          obtain rfl : k = x.entry := by omega
          exact .entry hkind
        · obtain ⟨j, rfl⟩ := Nat.exists_eq_add_of_le hge''
          exact .history (List.getElem?_eq_getElem (by omega))
    · obtain ⟨y, hy, htakes⟩ := hrest hge (by omega)
      exact ⟨y, List.mem_cons_of_mem x (List.mem_append_right _ hy), htakes⟩

theorem nodesOf_map_problem (problems : List Problem) :
    nodesOf (problems.map .problem) = [] := by
  induction problems with
  | nil => rfl
  | cons p rest ih => exact ih

theorem nodesOf_opening (x : Site) : nodesOf x.opening = [(x.node, x.arrows)] :=
  congrArg (_ :: ·) (nodesOf_map_problem x.childProblems)

theorem stands_of_mem_sitesAll {nodes : List (Node × List Arrow)} (states : List StateOutline)
    (start : Nat) (parent : Option Nat) (depth : Nat)
    (h : Stands nodes start (placeAll start parent depth states)) :
    ∀ x ∈ sitesAll start parent depth states, Stands nodes x.number
      (x.opening ++ placeAll (x.number + 1) (some x.number) (x.depth + 1) x.inside ++
        x.closing) := by
  induction states, start, parent, depth using place_induction with
  | nil start parent depth => exact fun x hx => nomatch hx
  | cons x rest hinside hrest =>
    have hlength : (nodesOf (x.opening ++ placeAll (x.number + 1) (some x.number) (x.depth + 1)
        x.inside ++ x.closing)).length = x.outline.size := by
      rw [← x.place_eq, length_nodesOf_place]
    rw [placeAll_cons] at h
    obtain ⟨hfirst, hbehind⟩ := h.append
    obtain ⟨-, haround⟩ := hfirst.append.1.append
    rw [hlength] at hbehind
    rw [nodesOf_opening, List.length_singleton] at haround
    rw [sitesAll_cons]
    intro y hy
    rcases List.mem_cons.1 hy with rfl | hy
    · exact hfirst
    · rcases List.mem_append.1 hy with hy | hy
      · exact hinside haround y hy
      · exact hrest hbehind y hy

theorem getElem?_of_stands_placeHistories {nodes : List (Node × List Arrow)} {owner : Node}
    {i start j : Nat} {defaults : List Ref} {histories : List HistoryOutline} {h : HistoryOutline}
    (hstands : Stands nodes start (placeHistories owner i defaults start histories))
    (hj : histories[j]? = some h) :
    nodes[start + j]? = some (historyNode owner i (start + j) h,
      [.default (DefaultOutline.targetsOr h.default defaults)
        (DefaultOutline.actionsOf h.default)]) := by
  induction histories generalizing start j with
  | nil => cases hj
  | cons first rest ih =>
    rw [placeHistories] at hstands
    obtain ⟨hnode, hrest⟩ := hstands.append
    cases j with
    | zero =>
      obtain rfl : first = h := by simpa using hj
      exact hnode.node.1
    | succ j =>
      rw [← List.singleton_append, nodesOf_append, nodesOf_problem_ite, List.append_nil] at hrest
      replace hrest : Stands nodes (start + 1) (placeHistories owner i defaults (start + 1) rest) :=
        hrest
      rw [Nat.add_comm j, ← Nat.add_assoc]
      exact ih hrest (by simpa using hj)

end StateOutline

namespace Outline

variable {o : Outline} {x : Site}

/-- Every node belongs to a site. -/
theorem exists_site {k : Nat} (hk : k < o.layout.length) : ∃ x ∈ o.sites, x.Takes k := by
  rw [length_layout] at hk
  exact exists_takes o.states 0 none 0 (Nat.zero_le k) (by omega)

theorem stands_of_mem_sites (hx : x ∈ o.sites) : Stands o.layout x.number
    (x.opening ++ placeAll (x.number + 1) (some x.number) (x.depth + 1) x.inside ++ x.closing) :=
  stands_of_mem_sitesAll o.states 0 none 0 o.stands x hx

theorem layout_number (hx : x ∈ o.sites) : o.layout[x.number]? = some (x.node, x.arrows) := by
  have hstands := stands_of_mem_sites hx
  rw [List.append_assoc, Site.opening, List.cons_append] at hstands
  exact hstands.node.1

theorem stands_closing (hx : x ∈ o.sites) : Stands o.layout x.entry x.closing := by
  have hclosing := (stands_of_mem_sites hx).append.2
  rw [nodesOf_append, nodesOf_opening, List.length_append, List.length_singleton,
    length_nodesOf_placeAll, ← Nat.add_assoc] at hclosing
  exact hclosing

theorem layout_entry (hx : x ∈ o.sites) (hkind : x.kind = .compound) :
    o.layout[x.entry]? = some (x.entryNode, [x.entryArrow]) := by
  have hclosing := stands_closing hx
  rw [Site.closing, if_pos hkind] at hclosing
  exact hclosing.append.1.node.1

theorem layout_history (hx : x ∈ o.sites) {j : Nat} {h : HistoryOutline}
    (hj : x.head.histories[j]? = some h) :
    o.layout[x.firstHistory + j]? =
      some (historyNode x.node x.number (x.firstHistory + j) h, [x.historyArrow h]) := by
  have hclosing := (stands_closing hx).append.2
  have hfirst : x.entry + (nodesOf (if x.kind = .compound then [.node x.entryNode [x.entryArrow]]
      else if x.head.initial.isSome then [.problem (.initialOnNonCompound x.id)] else [])).length =
      x.firstHistory := by
    unfold Site.firstHistory
    split
    · rfl
    · rw [nodesOf_problem_ite]
      rfl
  rw [hfirst] at hclosing
  exact getElem?_of_stands_placeHistories hclosing hj

theorem chart_number (hx : x ∈ o.sites) : o.chart.node x.number =
    { x.node with transitions := List.range' (firstArrow o.layout x.number) x.arrows.length } :=
  node_chart (layout_number hx)

theorem chart_entry (hx : x ∈ o.sites) (hkind : x.kind = .compound) : o.chart.node x.entry =
    { x.entryNode with transitions := [firstArrow o.layout x.entry] } :=
  node_chart (layout_entry hx hkind)

theorem chart_history (hx : x ∈ o.sites) {j : Nat} {h : HistoryOutline}
    (hj : x.head.histories[j]? = some h) : o.chart.node (x.firstHistory + j) =
      { historyNode x.node x.number (x.firstHistory + j) h with
        transitions := [firstArrow o.layout (x.firstHistory + j)] } :=
  node_chart (layout_history hx hj)

end Outline

end Statechart
