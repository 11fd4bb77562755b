import Mathlib.Data.List.Basic
import Mathlib.Data.Nat.Init
import Statechart.Chart.Placement
import Statechart.Proofs.Chart.Tree

/-!
What placement lays out. Whatever stands before and after it, the run of nodes that an outline
takes up is linked as the tree of a chart must be: every node inside a state knows the state,
and the state lists it. The argument follows the outline; where a run begins is told by the
sizes of the outlines before it.
-/

namespace Statechart

namespace StateOutline

/-- The nodes that are laid out. -/
def nodesOf (placed : List Placed) : List (Node × List Arrow) :=
  placed.filterMap Placed.node?

/-- The nodes of `placed` stand in `nodes` from the number `start` on. -/
def Stands (nodes : List (Node × List Arrow)) (start : Nat) (placed : List Placed) : Prop :=
  nodesOf placed <+: nodes.drop start

/-- Nothing is wrong with what is laid out. -/
def Sound (placed : List Placed) : Prop :=
  ∀ p, .problem p ∉ placed

/-- The states inside a state that are laid out. -/
def inside (head : StateHead) (children : List StateOutline) : List StateOutline :=
  if head.shape = .final then [] else children

/-- The node at the number `k` is the node `e`, which lists what belongs to it. -/
structure Owns (nodes : List (Node × List Arrow)) (k : Nat) (e : Node × List Arrow) : Prop where
  children_ascending : e.1.children.Pairwise (· < ·)
  child : ∀ x ∈ e.1.children,
    ∃ f, nodes[x]? = some f ∧ f.1.parent = some k ∧ f.1.kind.isPseudo = false
  children_ne_nil : e.1.kind = .compound ∨ e.1.kind = .parallel → e.1.children ≠ []
  entry : e.1.kind = .compound → ∃ i f, e.1.initial = some i ∧ nodes[i]? = some f ∧
    f.1.kind = .initial ∧ f.1.parent = some k
  history : ∀ x ∈ e.1.histories,
    ∃ f, nodes[x]? = some f ∧ f.1.parent = some k ∧ ∃ depth, f.1.kind = .history depth
  arrow : e.1.kind.isPseudo = true → ∃ a, e.2 = [a] ∧ a.targets ≠ []
  target : ∀ a ∈ e.2, ∀ x, .number x ∈ a.targets → x < nodes.length

/-- The node `e` at the number `k` stands inside a state that lists it. -/
structure Listed (nodes : List (Node × List Arrow)) (k : Nat) (e : Node × List Arrow) (p : Nat)
    (q : Node × List Arrow) : Prop where
  parent : e.1.parent = some p
  lt : p < k
  stands : nodes[p]? = some q
  composite : q.1.kind = .compound ∨ q.1.kind = .parallel
  depth : e.1.depth = q.1.depth + 1
  child : e.1.kind.isPseudo = false → k ∈ q.1.children
  history : (∃ depth, e.1.kind = .history depth) → k ∈ q.1.histories

section Runs

variable {nodes : List (Node × List Arrow)} {start : Nat}

theorem nodesOf_append (xs ys : List Placed) : nodesOf (xs ++ ys) = nodesOf xs ++ nodesOf ys :=
  List.filterMap_append

theorem Stands.append {xs ys : List Placed} (h : Stands nodes start (xs ++ ys)) :
    Stands nodes start xs ∧ Stands nodes (start + (nodesOf xs).length) ys := by
  unfold Stands at h ⊢
  rw [nodesOf_append] at h
  refine ⟨(List.prefix_append _ _).trans h, ?_⟩
  obtain ⟨rest, hrest⟩ := h
  refine ⟨rest, ?_⟩
  rw [← List.drop_drop, ← hrest, List.append_assoc, List.drop_left]

theorem Stands.node {n : Node} {arrows : List Arrow} {rest : List Placed}
    (h : Stands nodes start (.node n arrows :: rest)) :
    nodes[start]? = some (n, arrows) ∧ Stands nodes (start + 1) rest := by
  have happend : Stands nodes start ([.node n arrows] ++ rest) := h
  obtain ⟨h, hrest⟩ := happend.append
  refine ⟨?_, hrest⟩
  obtain ⟨rest, hrest⟩ := h
  have hhead := congrArg List.head? hrest
  rw [List.head?_drop] at hhead
  exact hhead.symm

theorem Sound.append {xs ys : List Placed} (h : Sound (xs ++ ys)) : Sound xs ∧ Sound ys :=
  ⟨fun p hp => h p (List.mem_append_left ys hp), fun p hp => h p (List.mem_append_right xs hp)⟩

theorem Sound.cons {x : Placed} {xs : List Placed} (h : Sound (x :: xs)) : Sound xs :=
  fun p hp => h p (List.mem_cons_of_mem x hp)

theorem sound_ite {b : Prop} [Decidable b] {p : Problem}
    (h : Sound (if b then [.problem p] else [])) : ¬ b := by
  intro hb
  rw [if_pos hb] at h
  exact h p (by simp)

theorem size_pos (s : StateOutline) : 0 < s.size := by
  cases s
  simp only [size]
  omega

theorem le_of_mem_numbersFrom {states : List StateOutline} {k : Nat}
    (h : k ∈ numbersFrom start states) : start ≤ k := by
  induction states generalizing start with
  | nil => simp [numbersFrom] at h
  | cons s rest ih =>
    rcases List.mem_cons.1 h with rfl | h
    · exact Nat.le_refl _
    · exact (Nat.le_add_right _ _).trans (ih h)

theorem numbersFrom_ascending (start : Nat) (states : List StateOutline) :
    (numbersFrom start states).Pairwise (· < ·) := by
  induction states generalizing start with
  | nil => exact .nil
  | cons s rest ih =>
    refine List.pairwise_cons.2 ⟨?_, ih _⟩
    intro k hk
    have := le_of_mem_numbersFrom hk
    have := s.size_pos
    omega

end Runs

theorem nodesOf_problem_ite (b : Prop) [Decidable b] (p : Problem) :
    nodesOf (if b then [.problem p] else []) = [] := by
  split <;> rfl

theorem length_nodesOf_placeHistories (owner : Node) (i : Nat) (defaults : List Ref) (start : Nat)
    (histories : List HistoryOutline) :
    (nodesOf (placeHistories owner i defaults start histories)).length = histories.length := by
  induction histories generalizing start with
  | nil => rfl
  | cons h rest ih =>
    rw [placeHistories, nodesOf_append, List.length_append, ih, ← List.singleton_append,
      nodesOf_append, nodesOf_problem_ite]
    simp [nodesOf, Placed.node?, Nat.add_comm]

mutual

theorem length_nodesOf_place (i : Nat) (parent : Option Nat) (depth : Nat) (s : StateOutline) :
    (nodesOf (place i parent depth s)).length = s.size := by
  match s with
  | .mk head children =>
    have hchildren := length_nodesOf_placeAll (i + 1) (some i) (depth + 1) children
    simp only [place, nodesOf_append, List.length_append, length_nodesOf_placeHistories, size,
      nodesOf_problem_ite, decide_eq_true_eq, List.length_nil, Nat.add_zero]
    have hnode : ∀ n arrows, (nodesOf [.node n arrows]).length = 1 := fun _ _ => rfl
    have hnil : nodesOf [] = [] := rfl
    by_cases hfinal : head.shape = .final <;>
      by_cases hcompound : head.kind (!children.isEmpty) = .compound <;>
      simp [hnode, hnil, hfinal, hcompound, hchildren, nodesOf_problem_ite]

theorem length_nodesOf_placeAll (i : Nat) (parent : Option Nat) (depth : Nat)
    (states : List StateOutline) :
    (nodesOf (placeAll i parent depth states)).length = sizeAll states := by
  match states with
  | [] => rfl
  | s :: rest =>
    rw [placeAll, nodesOf_append, List.length_append, length_nodesOf_place, sizeAll,
      length_nodesOf_placeAll]

end

/-- The parts of a state at the number `i`: its node `own`, then the states inside it, its
default entry if it has one, and from `first` on its histories. -/
structure Parts (nodes : List (Node × List Arrow)) (i : Nat) (parent : Option Nat) (depth : Nat)
    (head : StateHead) (states : List StateOutline) (own : Node) (defaults : List Ref)
    (first : Nat) : Prop where
  own_parent : own.parent = parent
  own_depth : own.depth = depth
  own_ordinary : own.kind.isPseudo = false
  own_children : own.children = numbersFrom (i + 1) states
  own_histories : own.histories = List.range' first head.histories.length
  first_eq : first = i + 1 + sizeAll states + if own.kind = .compound then 1 else 0
  stands : nodes[i]? = some (own, head.transitions.map TransitionOutline.arrow)
  nonempty : own.kind = .compound ∨ own.kind = .parallel → states ≠ []
  composite : states ≠ [] → own.kind = .compound ∨ own.kind = .parallel
  states_stand : Stands nodes (i + 1) (placeAll (i + 1) (some i) (depth + 1) states)
  states_sound : Sound (placeAll (i + 1) (some i) (depth + 1) states)
  entry : own.kind = .compound → ∃ e arrow, own.initial = some (i + 1 + sizeAll states) ∧
    nodes[i + 1 + sizeAll states]? = some (e, [arrow]) ∧ e.kind = .initial ∧
    e.parent = some i ∧ e.depth = depth + 1 ∧ e.children = [] ∧ e.histories = [] ∧
    arrow.targets = defaults
  defaults_compound : own.kind = .compound →
    defaults = DefaultOutline.targetsOr head.initial [.number (i + 1)]
  defaults_other : own.kind ≠ .compound → defaults = own.children.map .number
  histories_stand : Stands nodes first (placeHistories own i defaults first head.histories)
  histories_sound : Sound (placeHistories own i defaults first head.histories)

theorem kind_ordinary (head : StateHead) (hasChildren : Bool) :
    (head.kind hasChildren).isPseudo = false := by
  unfold StateHead.kind
  split
  · rfl
  · rfl
  · split <;> rfl

theorem composite_iff {head : StateHead} {children : List StateOutline}
    (h : ¬ (head.kind (!children.isEmpty) = .parallel ∧ children.isEmpty = true)) :
    (head.kind (!children.isEmpty) = .compound ∨ head.kind (!children.isEmpty) = .parallel) ↔
      inside head children ≠ [] := by
  unfold inside
  unfold StateHead.kind at h ⊢
  cases hshape : head.shape <;> cases children <;> simp_all

theorem parts_of_place {nodes : List (Node × List Arrow)} {i depth : Nat} {parent : Option Nat}
    {head : StateHead} {children : List StateOutline}
    (h : Stands nodes i (place i parent depth (.mk head children)))
    (hs : Sound (place i parent depth (.mk head children))) :
    ∃ own defaults first,
      Parts nodes i parent depth head (inside head children) own defaults first ∧
        i + size (.mk head children) = first + head.histories.length := by
  have hnumbers : (if head.shape = .final then [] else numbersFrom (i + 1) children) =
      numbersFrom (i + 1) (inside head children) := by
    unfold inside
    split <;> rfl
  have hsize : (if head.shape = .final then 0 else sizeAll children) =
      sizeAll (inside head children) := by
    unfold inside
    split <;> rfl
  have hplace : (if head.shape = .final then []
      else placeAll (i + 1) (some i) (depth + 1) children) =
      placeAll (i + 1) (some i) (depth + 1) (inside head children) := by
    unfold inside
    split <;> rfl
  simp only [place, decide_eq_true_eq, hnumbers, hsize, hplace] at h hs
  obtain ⟨h, hhistories⟩ := h.append
  obtain ⟨h, hentry⟩ := h.append
  obtain ⟨h, hinside⟩ := h.append
  obtain ⟨h, -⟩ := h.append
  obtain ⟨h, -⟩ := h.append
  obtain ⟨hs, hshistories⟩ := hs.append
  obtain ⟨hs, hsentry⟩ := hs.append
  obtain ⟨hs, hsinside⟩ := hs.append
  obtain ⟨hs, hsparallel⟩ := hs.append
  have hparallel := sound_ite hsparallel
  have hone : ∀ n arrows, (nodesOf [.node n arrows]).length = 1 := fun _ _ => rfl
  simp only [nodesOf_append, List.length_append, nodesOf_problem_ite, hone, List.length_nil,
    Nat.add_zero, length_nodesOf_placeAll] at hhistories hentry hinside
  have hfirst : ∀ (e : Node) (arrows : List Arrow) (p : Prop) [Decidable p] (problem : Problem),
      (nodesOf (if head.kind (!children.isEmpty) = .compound then [.node e arrows]
        else if p then [.problem problem] else [])).length =
      if head.kind (!children.isEmpty) = .compound then 1 else 0 := by
    intro e arrows p _ problem
    split
    · rfl
    · rw [nodesOf_problem_ite]
      rfl
  rw [hfirst, ← Nat.add_assoc, ← Nat.add_assoc] at hhistories
  rw [← Nat.add_assoc] at hentry
  refine ⟨_, _, _, ⟨rfl, rfl, ?_, rfl, rfl, rfl, h.node.1, ?_, ?_, hinside, hsinside, ?_, ?_, ?_,
    hhistories, hshistories⟩, ?_⟩
  · exact kind_ordinary head _
  · exact fun hk => (composite_iff hparallel).1 hk
  · exact fun hne => (composite_iff hparallel).2 hne
  · intro hk
    rw [if_pos hk] at hentry
    exact ⟨_, _, if_pos hk, hentry.node.1, rfl, rfl, rfl, rfl, rfl, rfl⟩
  · exact fun hk => if_pos hk
  · exact fun hk => if_neg hk
  · rw [size, hsize]
    dsimp only
    omega

/-- The node at the number `k` lists what belongs to it, and is listed itself unless it is one
of `roots`. -/
def Laid (nodes : List (Node × List Arrow)) (roots : List Nat) (k : Nat) : Prop :=
  ∃ e, nodes[k]? = some e ∧ Owns nodes k e ∧ (k ∈ roots ∨ ∃ p q, Listed nodes k e p q)

/-- The node at the number `k` is a state inside `parent`. -/
def Root (nodes : List (Node × List Arrow)) (parent : Option Nat) (depth k : Nat) : Prop :=
  ∃ e, nodes[k]? = some e ∧ e.1.parent = parent ∧ e.1.depth = depth ∧ e.1.kind.isPseudo = false

theorem owns_pseudo {nodes : List (Node × List Arrow)} {k : Nat} {n : Node} {a : Arrow}
    (hk : n.kind.isPseudo = true) (hchildren : n.children = []) (hhistories : n.histories = [])
    (hne : a.targets ≠ []) (hlt : ∀ x, .number x ∈ a.targets → x < nodes.length) :
    Owns nodes k (n, [a]) where
  children_ascending := by rw [hchildren]; exact .nil
  child := by simp [hchildren]
  children_ne_nil := by
    intro h
    rcases h with h | h <;> rw [h] at hk <;> cases hk
  entry := by
    intro h
    rw [h] at hk
    cases hk
  history := by simp [hhistories]
  arrow := fun _ => ⟨a, rfl, hne⟩
  target := by
    intro b hb x hx
    rw [List.mem_singleton.1 hb] at hx
    exact hlt x hx

theorem targetsOr_ne_nil {default : Option DefaultOutline} {targets : List Ref}
    (h : targets ≠ []) : DefaultOutline.targetsOr default targets ≠ [] := by
  unfold DefaultOutline.targetsOr
  split
  · next d =>
    split
    · exact h
    · next hd =>
      intro hnil
      exact hd (by simpa using hnil)
  · exact h

theorem mem_targetsOr {default : Option DefaultOutline} {targets : List Ref} {x : Nat}
    (h : .number x ∈ DefaultOutline.targetsOr default targets) : .number x ∈ targets := by
  unfold DefaultOutline.targetsOr at h
  split at h
  · split at h
    · exact h
    · simp at h
  · exact h

theorem isPseudo_or_composite_of_not_atomic {k : NodeKind} (hp : k.isPseudo = false)
    (ha : ¬ k.isAtomic = true) : k = .compound ∨ k = .parallel := by
  cases k <;> simp_all [NodeKind.isPseudo, NodeKind.isAtomic]

/-- The histories of a state are listed by it. -/
theorem laid_of_placeHistories {nodes : List (Node × List Arrow)} {own : Node}
    {arrows : List Arrow} {i : Nat} {defaults : List Ref} {start : Nat}
    {histories : List HistoryOutline}
    (h : Stands nodes start (placeHistories own i defaults start histories))
    (hs : Sound (placeHistories own i defaults start histories))
    (hown : nodes[i]? = some (own, arrows)) (hlt : i < start)
    (hordinary : own.kind.isPseudo = false)
    (hne : own.kind = .compound ∨ own.kind = .parallel → defaults ≠ [])
    (hdefaults : ∀ x, .number x ∈ defaults → x < nodes.length)
    (hlisted : ∀ k, start ≤ k → k < start + histories.length → k ∈ own.histories) :
    ∀ k, start ≤ k → k < start + histories.length → ∃ e, nodes[k]? = some e ∧ Owns nodes k e ∧
      Listed nodes k e i (own, arrows) ∧ ∃ depth, e.1.kind = .history depth := by
  induction histories generalizing start with
  | nil =>
    intro k hk hk'
    simp only [List.length_nil] at hk'
    omega
  | cons hist rest ih =>
    rw [placeHistories] at h hs
    obtain ⟨hnode, hrest⟩ := h.append
    obtain ⟨hsnode, hsrest⟩ := hs.append
    rw [← List.singleton_append, nodesOf_append, nodesOf_problem_ite, List.append_nil] at hrest
    replace hrest : Stands nodes (start + 1) (placeHistories own i defaults (start + 1) rest) :=
      hrest
    have hatomic : ¬ own.kind.isAtomic = true :=
      sound_ite hsnode.cons
    have hcomposite := isPseudo_or_composite_of_not_atomic hordinary hatomic
    intro k hk hk'
    rw [List.length_cons] at hk'
    by_cases hstart : k = start
    · subst hstart
      refine ⟨_, hnode.node.1, ?_, ?_, hist.depth, rfl⟩
      · exact owns_pseudo rfl rfl rfl (targetsOr_ne_nil (hne hcomposite))
          (fun x hx => hdefaults x (mem_targetsOr hx))
      · refine ⟨rfl, hlt, hown, hcomposite, rfl, ?_, ?_⟩
        · intro hp
          cases hp
        · intro _
          exact hlisted k hk (by rw [List.length_cons]; omega)
    · refine ih hrest hsrest (by omega) ?_ k (by omega) (by omega)
      intro k hk hk'
      exact hlisted k (by omega) (by rw [List.length_cons]; omega)

section State

variable {nodes : List (Node × List Arrow)} {i depth : Nat} {parent : Option Nat}
  {head : StateHead} {states : List StateOutline} {own : Node} {defaults : List Ref} {first : Nat}

theorem Parts.mem_children (h : Parts nodes i parent depth head states own defaults first)
    {x : Nat} (hx : .number x ∈ defaults) : x ∈ own.children := by
  by_cases hk : own.kind = .compound
  · rw [h.defaults_compound hk] at hx
    have hx := mem_targetsOr hx
    simp only [List.mem_singleton, Ref.number.injEq] at hx
    rw [hx, h.own_children]
    cases hstates : states with
    | nil => exact absurd hstates (h.nonempty (.inl hk))
    | cons s rest => simp [numbersFrom]
  · rw [h.defaults_other hk] at hx
    simpa using hx

theorem Parts.children_ne_nil (h : Parts nodes i parent depth head states own defaults first)
    (hk : own.kind = .compound ∨ own.kind = .parallel) : own.children ≠ [] := by
  rw [h.own_children]
  cases hstates : states with
  | nil => exact absurd hstates (h.nonempty hk)
  | cons s rest => simp [numbersFrom]

theorem Parts.defaults_ne_nil (h : Parts nodes i parent depth head states own defaults first)
    (hk : own.kind = .compound ∨ own.kind = .parallel) : defaults ≠ [] := by
  by_cases hc : own.kind = .compound
  · rw [h.defaults_compound hc]
    exact targetsOr_ne_nil (by simp)
  · rw [h.defaults_other hc]
    simpa using h.children_ne_nil hk

theorem lt_of_getElem?_eq_some {k : Nat} {e : Node × List Arrow} (h : nodes[k]? = some e) :
    k < nodes.length :=
  (List.getElem?_eq_some_iff.1 h).1

theorem not_number_mem_arrow {x : Nat} {a : Arrow} {transitions : List TransitionOutline}
    (ha : a ∈ transitions.map TransitionOutline.arrow) : .number x ∉ a.targets := by
  obtain ⟨t, -, rfl⟩ := List.mem_map.1 ha
  simp [TransitionOutline.arrow]

theorem Parts.default_lt (h : Parts nodes i parent depth head states own defaults first)
    (hroots : ∀ k ∈ numbersFrom (i + 1) states, Root nodes (some i) (depth + 1) k) {x : Nat}
    (hx : .number x ∈ defaults) : x < nodes.length := by
  have hx := h.mem_children hx
  rw [h.own_children] at hx
  obtain ⟨e, he, -⟩ := hroots x hx
  exact lt_of_getElem?_eq_some he

theorem Parts.laid_histories (h : Parts nodes i parent depth head states own defaults first)
    (hroots : ∀ k ∈ numbersFrom (i + 1) states, Root nodes (some i) (depth + 1) k) {k : Nat}
    (hk : first ≤ k) (hk' : k < first + head.histories.length) :
    ∃ e, nodes[k]? = some e ∧ Owns nodes k e ∧
      Listed nodes k e i (own, head.transitions.map TransitionOutline.arrow) ∧
      ∃ depth, e.1.kind = .history depth := by
  have hfirst := h.first_eq
  refine laid_of_placeHistories h.histories_stand h.histories_sound h.stands (by omega)
    h.own_ordinary h.defaults_ne_nil (fun x hx => h.default_lt hroots hx) ?_ k hk hk'
  intro k hk hk'
  rw [h.own_histories, List.mem_range'_1]
  exact ⟨hk, hk'⟩

theorem Parts.owns (h : Parts nodes i parent depth head states own defaults first)
    (hroots : ∀ k ∈ numbersFrom (i + 1) states, Root nodes (some i) (depth + 1) k) :
    Owns nodes i (own, head.transitions.map TransitionOutline.arrow) where
  children_ascending := by
    dsimp only
    rw [h.own_children]
    exact numbersFrom_ascending _ _
  child := by
    intro x hx
    dsimp only at hx
    rw [h.own_children] at hx
    obtain ⟨e, he, hp, -, hordinary⟩ := hroots x hx
    exact ⟨e, he, hp, hordinary⟩
  children_ne_nil := h.children_ne_nil
  entry := by
    intro hkind
    obtain ⟨e, arrow, hinitial, he, hkind, hp, -⟩ := h.entry hkind
    exact ⟨_, _, hinitial, he, hkind, hp⟩
  history := by
    intro x hx
    dsimp only at hx
    rw [h.own_histories, List.mem_range'_1] at hx
    obtain ⟨e, he, -, hlist, hkind⟩ := h.laid_histories hroots hx.1 hx.2
    exact ⟨e, he, hlist.parent, hkind⟩
  arrow := by
    intro hp
    dsimp only at hp
    rw [h.own_ordinary] at hp
    cases hp
  target := by
    intro a ha x hx
    exact absurd hx (not_number_mem_arrow ha)

/-- A state directly inside: its parent is the node at `i`. -/
theorem Parts.listed_root (h : Parts nodes i parent depth head states own defaults first)
    (hroots : ∀ k ∈ numbersFrom (i + 1) states, Root nodes (some i) (depth + 1) k) {k : Nat}
    {e : Node × List Arrow} (he : nodes[k]? = some e) (hk : k ∈ numbersFrom (i + 1) states) :
    Listed nodes k e i (own, head.transitions.map TransitionOutline.arrow) := by
  obtain ⟨e', he', hp, hdepth, hordinary⟩ := hroots k hk
  obtain rfl : e = e' := Option.some.inj (he.symm.trans he')
  refine ⟨hp, le_of_mem_numbersFrom hk, h.stands, ?_, ?_, ?_, ?_⟩
  · apply h.composite
    rintro rfl
    simp [numbersFrom] at hk
  · rw [hdepth, h.own_depth]
  · intro _
    dsimp only
    rw [h.own_children]
    exact hk
  · rintro ⟨d, hkind⟩
    rw [hkind] at hordinary
    cases hordinary

theorem Parts.laid_entry (h : Parts nodes i parent depth head states own defaults first)
    (hroots : ∀ k ∈ numbersFrom (i + 1) states, Root nodes (some i) (depth + 1) k)
    (hkind : own.kind = .compound) : Laid nodes [i] (i + 1 + sizeAll states) := by
  obtain ⟨e, arrow, -, he, hinitial, hp, hdepth, hchildren, hnone, rfl⟩ := h.entry hkind
  refine ⟨_, he, ?_, .inr ⟨i, _, hp, by omega, h.stands, .inl hkind, ?_, ?_, ?_⟩⟩
  · exact owns_pseudo (by rw [hinitial]; rfl) hchildren hnone
      (h.defaults_ne_nil (.inl hkind)) (fun x hx => h.default_lt hroots hx)
  · rw [hdepth, h.own_depth]
  · intro hordinary
    rw [hinitial] at hordinary
    cases hordinary
  · rintro ⟨d, hd⟩
    rw [hinitial] at hd
    cases hd

/-- A state is laid out rightly if the states inside it are. -/
theorem Parts.laid (h : Parts nodes i parent depth head states own defaults first)
    (hroots : ∀ k ∈ numbersFrom (i + 1) states, Root nodes (some i) (depth + 1) k)
    (hstates : ∀ k, i + 1 ≤ k → k < i + 1 + sizeAll states →
      Laid nodes (numbersFrom (i + 1) states) k) :
    ∀ k, i ≤ k → k < first + head.histories.length → Laid nodes [i] k := by
  have hfirst := h.first_eq
  intro k hk hk'
  by_cases hi : k = i
  · subst hi
    exact ⟨_, h.stands, h.owns hroots, .inl (by simp)⟩
  · by_cases hstate : k < i + 1 + sizeAll states
    · obtain ⟨e, he, howns, hplace⟩ := hstates k (by omega) hstate
      refine ⟨e, he, howns, .inr ?_⟩
      rcases hplace with hroot | hlist
      · exact ⟨i, _, h.listed_root hroots he hroot⟩
      · exact hlist
    · by_cases hhist : first ≤ k
      · obtain ⟨e, he, howns, hlist, -⟩ := h.laid_histories hroots hhist hk'
        exact ⟨e, he, howns, .inr ⟨i, _, hlist⟩⟩
      · -- What is left is the default entry.
        have hkind : own.kind = .compound := by
          by_contra hkind
          rw [if_neg hkind] at hfirst
          omega
        rw [if_pos hkind] at hfirst
        obtain rfl : k = i + 1 + sizeAll states := by omega
        exact h.laid_entry hroots hkind

end State

mutual

theorem laid_of_place {nodes : List (Node × List Arrow)} {i depth : Nat} {parent : Option Nat}
    (s : StateOutline) (h : Stands nodes i (place i parent depth s))
    (hs : Sound (place i parent depth s)) :
    Root nodes parent depth i ∧ ∀ k, i ≤ k → k < i + s.size → Laid nodes [i] k := by
  match s with
  | .mk head children =>
    obtain ⟨own, defaults, first, hparts, hsize⟩ := parts_of_place h hs
    have hinside : (∀ k ∈ numbersFrom (i + 1) (inside head children),
        Root nodes (some i) (depth + 1) k) ∧
        ∀ k, i + 1 ≤ k → k < i + 1 + sizeAll (inside head children) →
          Laid nodes (numbersFrom (i + 1) (inside head children)) k := by
      have hstand := hparts.states_stand
      have hsound := hparts.states_sound
      unfold inside at hstand hsound ⊢
      split
      · simp [numbersFrom, sizeAll]
        omega
      · next hfinal =>
        rw [if_neg hfinal] at hstand hsound
        exact laid_of_placeAll children hstand hsound
    rw [hsize]
    exact ⟨⟨_, hparts.stands, hparts.own_parent, hparts.own_depth, hparts.own_ordinary⟩,
      hparts.laid hinside.1 hinside.2⟩

theorem laid_of_placeAll {nodes : List (Node × List Arrow)} {i depth : Nat} {parent : Option Nat}
    (states : List StateOutline) (h : Stands nodes i (placeAll i parent depth states))
    (hs : Sound (placeAll i parent depth states)) :
    (∀ k ∈ numbersFrom i states, Root nodes parent depth k) ∧
      ∀ k, i ≤ k → k < i + sizeAll states → Laid nodes (numbersFrom i states) k := by
  match states with
  | [] =>
    refine ⟨by simp [numbersFrom], ?_⟩
    intro k hk hk'
    simp only [sizeAll] at hk'
    omega
  | s :: rest =>
    rw [placeAll] at h hs
    obtain ⟨hfirst, hrest⟩ := h.append
    obtain ⟨hsfirst, hsrest⟩ := hs.append
    rw [length_nodesOf_place] at hrest
    obtain ⟨hroot, hlaid⟩ := laid_of_place s hfirst hsfirst
    obtain ⟨hroots, hlaids⟩ := laid_of_placeAll rest hrest hsrest
    refine ⟨?_, ?_⟩
    · intro k hk
      rcases List.mem_cons.1 hk with rfl | hk
      · exact hroot
      · exact hroots k hk
    · intro k hk hk'
      rw [sizeAll] at hk'
      by_cases hks : k < i + s.size
      · obtain ⟨e, he, howns, hplace⟩ := hlaid k hk hks
        refine ⟨e, he, howns, ?_⟩
        rcases hplace with hk | hlist
        · rw [List.mem_singleton.1 hk]
          exact .inl (by simp [numbersFrom])
        · exact .inr hlist
      · obtain ⟨e, he, howns, hplace⟩ := hlaids k (by omega) (by omega)
        refine ⟨e, he, howns, ?_⟩
        rcases hplace with hk | hlist
        · exact .inl (List.mem_cons_of_mem _ hk)
        · exact .inr hlist

end

end StateOutline

end Statechart
