import Mathlib.Data.List.Basic
import Mathlib.Data.Nat.Init
import Mathlib.Order.Nat
import Mathlib.Tactic.ByContra
import Statechart.Chart.Ancestry

/-!
The tree of a chart. A chart that comes out of an outline is well formed: parents come before
their children, the lists kept at a node agree with the links upward, and every node below
another stands below a compound or a parallel state. From this alone follow the laws of the
order "lies below": it is transitive, the states above a state form a chain, and two branches
that part do so at one state.
-/

namespace Statechart.Chart

/-- `s` is the number of a state, default entries and histories left out. -/
def Ordinary (c : Chart) (s : Nat) : Prop :=
  s < c.nodes.size ∧ c.isPseudo s = false

/-- `s` has states inside it. -/
def IsComposite (c : Chart) (s : Nat) : Prop :=
  c.kind s = .compound ∨ c.kind s = .parallel

/-- `s` is a history. -/
def IsHistory (c : Chart) (s : Nat) : Prop :=
  ∃ depth, c.kind s = .history depth

/-- The structure that placement gives to a chart. -/
structure WellFormed (c : Chart) : Prop where
  parent_lt : ∀ {s p}, c.parent s = some p → p < s
  parent_composite : ∀ {s p}, c.parent s = some p → c.IsComposite p
  depth_child : ∀ {s p}, c.parent s = some p → (c.node s).depth = (c.node p).depth + 1
  mem_children : ∀ {s p}, s ∈ c.children p ↔ c.parent s = some p ∧ c.isPseudo s = false
  children_ascending : ∀ p, (c.children p).Pairwise (· < ·)
  children_ne_nil : ∀ {p}, c.IsComposite p → c.children p ≠ []
  mem_topLevel : ∀ {s}, s ∈ c.topLevel ↔ s < c.nodes.size ∧ c.parent s = none
  pseudo_parent : ∀ {s}, c.isPseudo s = true → ∃ p, c.parent s = some p
  default_entry : ∀ {s}, c.kind s = .compound →
    ∃ i t, (c.node s).initial = some i ∧ c.kind i = .initial ∧ c.parent i = some s ∧
      (c.node i).transitions = [t]
  mem_histories : ∀ {h s}, h ∈ (c.node s).histories ↔ c.parent h = some s ∧ c.IsHistory h
  pseudo_transition : ∀ {s}, c.isPseudo s = true →
    ∃ t, (c.node s).transitions = [t] ∧ (c.transition t).targets ≠ []
  mem_transitions : ∀ {t s}, t ∈ (c.node s).transitions ↔
    t < c.transitions.size ∧ (c.transition t).source = s
  source_lt : ∀ {t}, t < c.transitions.size → (c.transition t).source < c.nodes.size
  targets_lt : ∀ {t x}, x ∈ (c.transition t).targets → x < c.nodes.size
  initial_lt : ∀ {x}, x ∈ c.initial → x < c.nodes.size
  initial_ne_nil : c.initial ≠ []
  idOf_injective : ∀ {s t}, s < c.nodes.size → t < c.nodes.size → c.idOf s = c.idOf t → s = t

/-- `s` lies properly below `a`. -/
def Below (c : Chart) (s a : Nat) : Prop :=
  a ∈ c.ancestors s

/-- `s` is `a` or lies below it. -/
def Within (c : Chart) (s a : Nat) : Prop :=
  a ∈ c.branch s

variable {c : Chart}

theorem isDescendant_iff {s a : Nat} : c.isDescendant s a = true ↔ c.Below s a := by
  simp [isDescendant, Below]

theorem within_iff {s a : Nat} : c.Within s a ↔ s = a ∨ c.Below s a := by
  simp [Within, Below, branch, eq_comm]

theorem Below.within {s a : Nat} (h : c.Below s a) : c.Within s a :=
  within_iff.2 (.inr h)

@[simp] theorem Within.refl (s : Nat) : c.Within s s :=
  within_iff.2 (.inl rfl)

theorem node_absent {s : Nat} (h : c.nodes.size ≤ s) : c.node s = .absent := by
  simp [node, Array.getD, Nat.not_lt.2 h]

theorem map_node_states (c : Chart) : c.states.map c.node = c.nodes.toList := by
  refine List.ext_getElem (by simp [states]) fun k hk hk' => ?_
  have hlt : k < c.nodes.size := by simpa [states] using hk
  simp [states, node, Array.getD, hlt]

theorem lt_size_of_parent {s p : Nat} (h : c.parent s = some p) : s < c.nodes.size := by
  by_contra hs
  simp [parent, node_absent (Nat.le_of_not_lt hs), Node.absent] at h

theorem lt_size_of_ne_simple {s : Nat} (h : c.kind s ≠ .simple) : s < c.nodes.size := by
  by_contra hs
  exact h (by simp [kind, node_absent (Nat.le_of_not_lt hs), Node.absent])

theorem lt_size_of_isPseudo {s : Nat} (h : c.isPseudo s = true) : s < c.nodes.size := by
  apply lt_size_of_ne_simple
  intro hk
  rw [isPseudo, hk] at h
  cases h

theorem lt_size_of_mem_children {s p : Nat} (h : s ∈ c.children p) : p < c.nodes.size := by
  by_contra hp
  simp [children, node_absent (Nat.le_of_not_lt hp), Node.absent] at h

theorem lt_size_of_mem_histories {h s : Nat} (hh : h ∈ (c.node s).histories) :
    s < c.nodes.size := by
  by_contra hs
  simp [node_absent (Nat.le_of_not_lt hs), Node.absent] at hh

theorem IsComposite.lt_size {s : Nat} (h : c.IsComposite s) : s < c.nodes.size := by
  apply lt_size_of_ne_simple
  rcases h with h | h <;> simp [h]

theorem WellFormed.parent_lt_size (hw : c.WellFormed) {s p : Nat} (h : c.parent s = some p) :
    p < c.nodes.size :=
  (hw.parent_composite h).lt_size

theorem IsComposite.ordinary {s : Nat} (h : c.IsComposite s) : c.Ordinary s := by
  refine ⟨h.lt_size, ?_⟩
  rcases h with h | h <;> simp [isPseudo, h, NodeKind.isPseudo]

theorem IsComposite.not_atomic {s : Nat} (h : c.IsComposite s) : c.isAtomic s = false := by
  rcases h with h | h <;> simp [isAtomic, h, NodeKind.isAtomic]

/-- A state without children in the sense of `isAtomic`, one with children, or a pseudo-state:
there is nothing else. -/
theorem kind_cases (c : Chart) (s : Nat) :
    c.isAtomic s = true ∧ c.isPseudo s = false ∨ c.IsComposite s ∨
      c.isPseudo s = true := by
  unfold isAtomic isPseudo IsComposite
  cases c.kind s <;> simp [NodeKind.isAtomic, NodeKind.isPseudo]

theorem isPseudo_of_isAtomic {s : Nat} (h : c.isAtomic s = true) : c.isPseudo s = false := by
  unfold isAtomic at h
  unfold isPseudo
  revert h
  cases c.kind s <;> simp [NodeKind.isAtomic, NodeKind.isPseudo]

theorem isHistory_iff {s : Nat} :
    c.IsHistory s ↔ c.isPseudo s = true ∧ c.kind s ≠ .initial := by
  unfold IsHistory isPseudo
  cases c.kind s <;> simp [NodeKind.isPseudo]

instance (c : Chart) (s : Nat) : Decidable (c.IsHistory s) :=
  decidable_of_iff _ isHistory_iff.symm

theorem IsHistory.isPseudo {s : Nat} (h : c.IsHistory s) : c.isPseudo s = true := by
  obtain ⟨depth, hk⟩ := h
  simp [Chart.isPseudo, hk, NodeKind.isPseudo]

namespace WellFormed

variable (hw : c.WellFormed)

include hw

/-- As many steps as the number of a state lead to the top, and more lead no further. -/
theorem climb_eq {steps s : Nat} (h : s ≤ steps) : c.climb steps s = c.ancestors s := by
  induction s using Nat.strong_induction_on generalizing steps with
  | _ s ih =>
    cases steps with
    | zero =>
      have hs : s = 0 := by omega
      subst hs
      rfl
    | succ steps =>
      cases hp : c.parent s with
      | none => cases s <;> simp [ancestors, climb, hp]
      | some p =>
        have hlt := hw.parent_lt hp
        cases s with
        | zero => omega
        | succ s =>
          simp only [ancestors, climb, hp]
          rw [ih p hlt (show p ≤ steps by omega), ih p hlt (show p ≤ s by omega)]

theorem ancestors_of_parent {s p : Nat} (hp : c.parent s = some p) :
    c.ancestors s = p :: c.ancestors p := by
  have hlt := hw.parent_lt hp
  cases s with
  | zero => omega
  | succ s =>
    simp only [ancestors, climb, hp]
    rw [hw.climb_eq (show p ≤ s by omega)]
    rfl

omit hw in
theorem ancestors_of_top {s : Nat} (hp : c.parent s = none) : c.ancestors s = [] := by
  cases s <;> simp [ancestors, climb, hp]

theorem below_iff_within_parent {s p a : Nat} (hp : c.parent s = some p) :
    c.Below s a ↔ c.Within p a := by
  rw [within_iff, Below, hw.ancestors_of_parent hp, List.mem_cons]
  simp [Below, eq_comm]

omit hw in
theorem not_below_of_top {s a : Nat} (hp : c.parent s = none) : ¬ c.Below s a := by
  simp [Below, ancestors_of_top hp]

theorem below_parent {s p : Nat} (hp : c.parent s = some p) : c.Below s p :=
  (hw.below_iff_within_parent hp).2 (.refl p)

theorem exists_parent_of_below {s a : Nat} (h : c.Below s a) :
    ∃ p, c.parent s = some p ∧ c.Within p a := by
  cases hp : c.parent s with
  | none => exact absurd h (not_below_of_top hp)
  | some p => exact ⟨p, rfl, (hw.below_iff_within_parent hp).1 h⟩

theorem below_lt {s a : Nat} (h : c.Below s a) : a < s := by
  induction s using Nat.strong_induction_on with
  | _ s ih =>
    obtain ⟨p, hp, hpa⟩ := hw.exists_parent_of_below h
    have hlt := hw.parent_lt hp
    rcases within_iff.1 hpa with rfl | hbelow
    · exact hlt
    · exact (ih p hlt hbelow).trans hlt

theorem within_le {s a : Nat} (h : c.Within s a) : a ≤ s := by
  rcases within_iff.1 h with rfl | hbelow
  · exact Nat.le_refl _
  · exact (hw.below_lt hbelow).le

theorem not_below_self (s : Nat) : ¬ c.Below s s :=
  fun h => Nat.lt_irrefl s (hw.below_lt h)

theorem within_antisymm {s a : Nat} (h : c.Within s a) (h' : c.Within a s) : s = a :=
  Nat.le_antisymm (hw.within_le h') (hw.within_le h)

theorem below_of_below_of_within {s a b : Nat} (h : c.Below s a) (hab : c.Within a b) :
    c.Below s b := by
  induction s using Nat.strong_induction_on with
  | _ s ih =>
    obtain ⟨p, hp, hpa⟩ := hw.exists_parent_of_below h
    apply (hw.below_iff_within_parent hp).2
    rcases within_iff.1 hpa with rfl | hbelow
    · exact hab
    · exact (ih p (hw.parent_lt hp) hbelow).within

theorem within_trans {s a b : Nat} (h : c.Within s a) (hab : c.Within a b) : c.Within s b := by
  rcases within_iff.1 h with rfl | hbelow
  · exact hab
  · exact (hw.below_of_below_of_within hbelow hab).within

theorem below_of_within_of_below {s a b : Nat} (h : c.Within s a) (hab : c.Below a b) :
    c.Below s b := by
  rcases within_iff.1 h with rfl | hbelow
  · exact hab
  · exact hw.below_of_below_of_within hbelow hab.within

/-- The states above a state form a chain. -/
theorem within_total {s a b : Nat} (ha : c.Within s a) (hb : c.Within s b) :
    c.Within a b ∨ c.Within b a := by
  induction s using Nat.strong_induction_on with
  | _ s ih =>
    rcases within_iff.1 ha with rfl | ha
    · exact .inl hb
    · rcases within_iff.1 hb with rfl | hb
      · exact .inr ha.within
      · obtain ⟨p, hp, hpa⟩ := hw.exists_parent_of_below ha
        exact ih p (hw.parent_lt hp) hpa ((hw.below_iff_within_parent hp).1 hb)

theorem within_or_below {s a b : Nat} (ha : c.Within s a) (hb : c.Within s b) :
    c.Within a b ∨ c.Below b a := by
  rcases hw.within_total ha hb with h | h
  · exact .inl h
  · rcases within_iff.1 h with rfl | h
    · exact .inl (.refl _)
    · exact .inr h

theorem not_within_of_below {s a : Nat} (h : c.Below s a) : ¬ c.Within a s :=
  fun h' => Nat.lt_irrefl a ((hw.below_lt h).trans_le (hw.within_le h'))

/-- Below a state a branch goes through one of the nodes directly below it. -/
theorem exists_child_of_below {s a : Nat} (h : c.Below s a) :
    ∃ x, c.parent x = some a ∧ c.Within s x := by
  induction s using Nat.strong_induction_on with
  | _ s ih =>
    obtain ⟨p, hp, hpa⟩ := hw.exists_parent_of_below h
    rcases within_iff.1 hpa with rfl | hbelow
    · exact ⟨s, hp, .refl s⟩
    · obtain ⟨x, hx, hpx⟩ := ih p (hw.parent_lt hp) hbelow
      exact ⟨x, hx, hw.within_trans (hw.below_parent hp).within hpx⟩

theorem below_of_within_child {s x a : Nat} (hx : c.parent x = some a) (h : c.Within s x) :
    c.Below s a :=
  hw.below_of_within_of_below h (hw.below_parent hx)

/-- A branch goes through one of the nodes directly below a state at most. -/
theorem child_unique {s x y a : Nat} (hx : c.parent x = some a) (hy : c.parent y = some a)
    (hsx : c.Within s x) (hsy : c.Within s y) : x = y := by
  rcases hw.within_or_below hsx hsy with h | h
  · rcases within_iff.1 h with rfl | hbelow
    · rfl
    · exact absurd ((hw.below_iff_within_parent hx).1 hbelow)
        (hw.not_within_of_below (hw.below_parent hy))
  · exact absurd ((hw.below_iff_within_parent hy).1 h)
      (hw.not_within_of_below (hw.below_parent hx))

theorem composite_of_below {s a : Nat} (h : c.Below s a) : c.IsComposite a := by
  obtain ⟨x, hx, -⟩ := hw.exists_child_of_below h
  exact hw.parent_composite hx

theorem ordinary_of_below {s a : Nat} (h : c.Below s a) : c.Ordinary a :=
  (hw.composite_of_below h).ordinary

theorem ordinary_of_within {s a : Nat} (hs : c.Ordinary s) (h : c.Within s a) :
    c.Ordinary a := by
  rcases within_iff.1 h with rfl | hbelow
  · exact hs
  · exact hw.ordinary_of_below hbelow

theorem mem_children_of_within {s x a : Nat} (hs : c.Ordinary s) (hx : c.parent x = some a)
    (h : c.Within s x) : x ∈ c.children a :=
  hw.mem_children.2 ⟨hx, (hw.ordinary_of_within hs h).2⟩

/-- Nothing lies below a state that is not composite. -/
theorem eq_of_within {s a : Nat} (ha : ¬ c.IsComposite a) (h : c.Within s a) : s = a := by
  rcases within_iff.1 h with rfl | hbelow
  · rfl
  · exact absurd (hw.composite_of_below hbelow) ha

theorem ordinary_of_mem_children {s p : Nat} (h : s ∈ c.children p) : c.Ordinary s := by
  obtain ⟨hp, hs⟩ := hw.mem_children.1 h
  exact ⟨lt_size_of_parent hp, hs⟩

/-- The states above a state, each below the next. -/
theorem ancestors_pairwise (s : Nat) : (c.ancestors s).Pairwise c.Below := by
  induction s using Nat.strong_induction_on with
  | _ s ih =>
    cases hp : c.parent s with
    | none => rw [ancestors_of_top hp]; exact .nil
    | some p =>
      rw [hw.ancestors_of_parent hp]
      exact List.pairwise_cons.2 ⟨fun a ha => ha, ih p (hw.parent_lt hp)⟩

theorem branch_pairwise (s : Nat) : (c.branch s).Pairwise c.Below :=
  List.pairwise_cons.2 ⟨fun _ ha => ha, hw.ancestors_pairwise s⟩

/-- The first state of a chain that meets a condition is the innermost one. -/
theorem find?_chain_eq_some_iff {chain : List Nat} (hchain : chain.Pairwise c.Below)
    {p : Nat → Bool} {d : Nat} : chain.find? p = some d ↔
      d ∈ chain ∧ p d = true ∧ ∀ e ∈ chain, p e = true → c.Within d e := by
  rw [List.find?_eq_some_iff_append]
  constructor
  · rintro ⟨hd, before, after, rfl, hbefore⟩
    refine ⟨by simp, hd, ?_⟩
    intro e he hpe
    rw [List.pairwise_append, List.pairwise_cons] at hchain
    rw [List.mem_append, List.mem_cons] at he
    rcases he with he | rfl | he
    · have hnot := hbefore e he
      simp [hpe] at hnot
    · exact .refl _
    · exact Below.within (hchain.2.1.1 e he)
  · rintro ⟨hmem, hd, hinner⟩
    obtain ⟨before, after, rfl⟩ := List.append_of_mem hmem
    refine ⟨hd, before, after, rfl, ?_⟩
    intro e he
    rw [List.pairwise_append] at hchain
    have hed : c.Below e d := hchain.2.2 e he d (by simp)
    by_contra hpe
    simp only [Bool.not_eq_true', Bool.not_eq_false] at hpe
    exact hw.not_within_of_below hed (hinner e (by simp [he]) hpe)

end WellFormed

theorem lookup_idOf (hw : c.WellFormed) {s : Nat} (hs : s < c.nodes.size) :
    c.lookup (c.idOf s) = some s := by
  have hnode : ∀ {k : Nat} (hk : k < c.nodes.size), c.nodes[k].id = c.idOf k := by
    intro k hk
    simp [idOf, node, Array.getD, hk]
  rw [lookup, Array.findIdx?_eq_some_iff_getElem]
  refine ⟨hs, by simpa using hnode hs, ?_⟩
  intro k hk heq
  have hlt : k < c.nodes.size := Nat.lt_trans hk hs
  rw [hnode hlt, beq_iff_eq] at heq
  exact absurd (hw.idOf_injective hlt hs heq) (Nat.ne_of_lt hk)

theorem lt_size_of_lookup {id : String} {s : Nat} (h : c.lookup id = some s) :
    s < c.nodes.size := by
  rw [lookup, Array.findIdx?_eq_some_iff_getElem] at h
  exact h.1

theorem idOf_of_lookup {id : String} {s : Nat} (h : c.lookup id = some s) : c.idOf s = id := by
  rw [lookup, Array.findIdx?_eq_some_iff_getElem] at h
  obtain ⟨hlt, hid, -⟩ := h
  simpa [idOf, node, Array.getD, hlt] using hid

end Statechart.Chart
