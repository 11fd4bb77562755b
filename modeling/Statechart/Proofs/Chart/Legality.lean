import Statechart.Chart.Legality
import Statechart.Proofs.Chart.Closure
import Statechart.Proofs.Chart.Parting
import Statechart.Proofs.Collections

/-!
Legal sets of active states. A legal set is closed upward and holds one child of each of its
compound states, all regions of each of its parallel states and one state of the top level at
most; any two of its states are joinable, and conversely joinable states whose closure leaves no
region out have a legal closure. The rules that are checked on the states without children fail
nowhere exactly when the closure is legal.
-/

namespace Statechart.Chart

/-- The states of `active` may be active together, and no others need to be. -/
structure Legal (c : Chart) (active : StateSet) : Prop where
  ordinary : ∀ {s}, s ∈ active → c.Ordinary s
  upward : ∀ {s p}, s ∈ active → c.parent s = some p → p ∈ active
  compound : ∀ {s}, s ∈ active → c.kind s = .compound → ∃! x, x ∈ c.children s ∧ x ∈ active
  parallel : ∀ {s}, s ∈ active → c.kind s = .parallel → ∀ x ∈ c.children s, x ∈ active
  top : ∀ {s t}, s ∈ active → t ∈ active → c.parent s = none → c.parent t = none → s = t

/-- The state around an active state is active. -/
def Rooted (c : Chart) (active : StateSet) : Prop :=
  ∀ {s p}, s ∈ active → c.parent s = some p → p ∈ active

/-- The members of `states` are states without children. -/
def AllAtomic (c : Chart) (states : StateSet) : Prop :=
  ∀ s ∈ states, c.isAtomic s = true ∧ s < c.nodes.size

variable {c : Chart}

theorem AllAtomic.ordinary {states : StateSet} (h : c.AllAtomic states) {s : Nat}
    (hs : s ∈ states) : c.Ordinary s :=
  ⟨(h s hs).2, isPseudo_of_isAtomic (h s hs).1⟩

theorem AllAtomic.not_composite {states : StateSet} (h : c.AllAtomic states) {s : Nat}
    (hs : s ∈ states) : ¬ c.IsComposite s := by
  intro hc
  exact absurd (h s hs).1 (by simp [hc.not_atomic])

theorem legal_empty : c.Legal ∅ where
  ordinary h := absurd h (StateSet.not_mem_empty _)
  upward h := absurd h (StateSet.not_mem_empty _)
  compound h := absurd h (StateSet.not_mem_empty _)
  parallel h := absurd h (StateSet.not_mem_empty _)
  top h := absurd h (StateSet.not_mem_empty _)

namespace WellFormed

variable (hw : c.WellFormed)

include hw

theorem exists_top (s : Nat) : ∃ t, c.parent t = none ∧ c.Within s t := by
  induction s using Nat.strong_induction_on with
  | _ s ih =>
    cases hp : c.parent s with
    | none => exact ⟨s, hp, .refl s⟩
    | some p =>
      obtain ⟨t, ht, hpt⟩ := ih p (hw.parent_lt hp)
      exact ⟨t, ht, hw.within_trans (hw.below_parent hp).within hpt⟩

/-- Every node stands in the tree of a state of the top level. -/
theorem exists_mem_topLevel {s : Nat} (hs : s < c.nodes.size) :
    ∃ t ∈ c.topLevel, c.Within s t := by
  obtain ⟨t, ht, hst⟩ := hw.exists_top s
  exact ⟨t, hw.mem_topLevel.2 ⟨(hw.within_le hst).trans_lt hs, ht⟩, hst⟩

omit hw in
theorem eq_of_within_top {s a : Nat} (hs : c.parent s = none) (h : c.Within s a) : s = a := by
  rcases within_iff.1 h with rfl | hbelow
  · rfl
  · exact absurd hbelow (not_below_of_top hs)

theorem top_unique {s t u : Nat} (ht : c.parent t = none) (hu : c.parent u = none)
    (hst : c.Within s t) (hsu : c.Within s u) : t = u := by
  rcases hw.within_total hst hsu with h | h
  · exact eq_of_within_top ht h
  · exact (eq_of_within_top hu h).symm

/-- States that one state holds both lie in one tree. -/
theorem top_eq_of_within {a b t u x : Nat} (ht : c.parent t = none) (hu : c.parent u = none)
    (hat : c.Within a t) (hbu : c.Within b u) (hax : c.Within a x) (hbx : c.Within b x) :
    t = u := by
  obtain ⟨v, hv, hxv⟩ := hw.exists_top x
  rw [hw.top_unique ht hv hat (hw.within_trans hax hxv),
    hw.top_unique hu hv hbu (hw.within_trans hbx hxv)]

/-- Joinable states lie in one tree. -/
theorem top_eq_of_joinable {a b t u : Nat} (h : c.Joinable a b) (ht : c.parent t = none)
    (hu : c.parent u = none) (hat : c.Within a t) (hbu : c.Within b u) : t = u := by
  rcases h with h | h | ⟨p, -, hpart⟩
  · exact hw.top_eq_of_within ht hu hat hbu h (.refl b)
  · exact hw.top_eq_of_within ht hu hat hbu (.refl a) h
  · obtain ⟨hap, hbp⟩ := PartAt.below hw hpart
    exact hw.top_eq_of_within ht hu hat hbu hap.within hbp.within

theorem root_eq {s t : Nat} (ht : c.parent t = none) (hst : c.Within s t) : c.root s = t := by
  induction s using Nat.strong_induction_on with
  | _ s ih =>
    cases hp : c.parent s with
    | none =>
      rw [root, ancestors_of_top hp]
      exact eq_of_within_top hp hst
    | some p =>
      have hpt : c.Within p t := by
        apply (hw.below_iff_within_parent hp).1
        rcases within_iff.1 hst with rfl | h
        · rw [hp] at ht
          cases ht
        · exact h
      rw [← ih p (hw.parent_lt hp) hpt]
      rw [root, root, hw.ancestors_of_parent hp]
      cases h : c.ancestors p with
      | nil => rfl
      | cons a above => simp [List.getLast?_eq_some_getLast]

theorem mem_of_rooted {active : StateSet} (hrooted : c.Rooted active) {s a : Nat}
    (hs : s ∈ active) (h : c.Within s a) : a ∈ active := by
  induction s using Nat.strong_induction_on with
  | _ s ih =>
    rcases within_iff.1 h with rfl | hbelow
    · exact hs
    · obtain ⟨p, hp, hpa⟩ := hw.exists_parent_of_below hbelow
      exact ih p (hw.parent_lt hp) (hrooted hs hp) hpa

theorem upward_of_legal {active : StateSet} (hl : c.Legal active) {s a : Nat} (hs : s ∈ active)
    (h : c.Within s a) : a ∈ active :=
  hw.mem_of_rooted hl.upward hs h

theorem joinable_of_legal {active : StateSet} (hl : c.Legal active) {a b : Nat}
    (ha : a ∈ active) (hb : b ∈ active) : c.Joinable a b := by
  obtain ⟨t, ht, hat⟩ := hw.exists_top a
  obtain ⟨u, hu, hbu⟩ := hw.exists_top b
  have htu : t = u :=
    hl.top (hw.upward_of_legal hl ha hat) (hw.upward_of_legal hl hb hbu) ht hu
  subst htu
  rcases hw.within_or_partAt hat hbu with h | h | ⟨p, x, y, hx, hy, hxy, hax, hby⟩
  · exact .inl h
  · exact .inr (.inl h)
  · have hxa := hw.upward_of_legal hl ha hax
    have hya := hw.upward_of_legal hl hb hby
    rcases hw.parent_composite hx with hp | hp
    · -- Two active children of a compound state are one.
      have hxc := hw.mem_children.2 ⟨hx, (hl.ordinary hxa).2⟩
      have hyc := hw.mem_children.2 ⟨hy, (hl.ordinary hya).2⟩
      exact absurd
        ((hl.compound (hl.upward hxa hx) hp).unique ⟨hxc, hxa⟩ ⟨hyc, hya⟩) hxy
    · exact Orthogonal.joinable ⟨p, hp, x, y, hx, hy, hxy, hax, hby⟩

theorem exists_child_of_legal {active : StateSet} (hl : c.Legal active) {s : Nat}
    (hs : s ∈ active) (hc : c.IsComposite s) : ∃ x ∈ c.children s, x ∈ active := by
  rcases hc with hk | hk
  · obtain ⟨x, ⟨hx, hxa⟩, -⟩ := hl.compound hs hk
    exact ⟨x, hx, hxa⟩
  · obtain ⟨x, hx⟩ := List.exists_mem_of_ne_nil _ (hw.children_ne_nil (.inr hk))
    exact ⟨x, hx, hl.parallel hs hk x hx⟩

/-- A state of one legal set belongs to another if both share something inside the state around
it. -/
theorem mem_of_shared {A B : StateSet} (hA : c.Legal A) (hB : c.Legal B) {x y : Nat} (hx : x ∈ B)
    (hyA : y ∈ A) (hyB : y ∈ B) (hxy : ∀ p, c.parent x = some p → c.Below y p) : x ∈ A := by
  cases hp : c.parent x with
  | none =>
    obtain ⟨t, ht, hyt⟩ := hw.exists_top y
    rw [hB.top hx (hw.upward_of_legal hB hyB hyt) hp ht]
    exact hw.upward_of_legal hA hyA hyt
  | some p =>
    have hyp := hxy p hp
    have hpA := hw.upward_of_legal hA hyA hyp.within
    have hxc := hw.mem_children.2 ⟨hp, (hB.ordinary hx).2⟩
    rcases hw.parent_composite hp with hk | hk
    · -- The child of `p` around what is shared is the active one in both sets.
      obtain ⟨z, hz, hyz⟩ := hw.exists_child_of_below hyp
      have hzA := hw.upward_of_legal hA hyA hyz
      have hzc := hw.mem_children.2 ⟨hz, (hA.ordinary hzA).2⟩
      rw [(hB.compound (hB.upward hx hp) hk).unique ⟨hxc, hx⟩
        ⟨hzc, hw.upward_of_legal hB hyB hyz⟩]
      exact hzA
    · exact hA.parallel hpA hk x hxc

/-- In a legal set every state has a state without children within it. -/
theorem exists_atomic_of_legal {active : StateSet} (hl : c.Legal active) {s : Nat}
    (hs : s ∈ active) : ∃ x ∈ active, c.isAtomic x = true ∧ c.Within x s := by
  -- Induction on the number of nodes after `s`: children have higher numbers.
  induction hn : c.nodes.size - s using Nat.strong_induction_on generalizing s with
  | _ n ih =>
    rcases c.kind_cases s with ⟨h, -⟩ | h | h
    · exact ⟨s, hs, h, .refl s⟩
    · obtain ⟨x, hx, hxa⟩ := hw.exists_child_of_legal hl hs h
      have hp := (hw.mem_children.1 hx).1
      have hlt := hw.parent_lt hp
      have hsize := lt_size_of_parent hp
      obtain ⟨y, hy, hya, hyx⟩ := ih (c.nodes.size - x) (by omega) hxa rfl
      exact ⟨y, hy, hya, hw.within_trans hyx (hw.below_parent hp).within⟩
    · exact absurd h (by simp [(hl.ordinary hs).2])

/-- A legal set is the closure of its states without children. -/
theorem closure_of_legal {active : StateSet} (hl : c.Legal active) :
    c.closure (active.filter c.isAtomic).members = active := by
  apply StateSet.ext
  intro s
  rw [hw.mem_closure]
  constructor
  · rintro ⟨x, hx, hxs⟩
    exact hw.upward_of_legal hl (StateSet.mem_filter.1 hx).1 hxs
  · intro hs
    obtain ⟨x, hx, hxa, hxs⟩ := hw.exists_atomic_of_legal hl hs
    exact ⟨x, StateSet.mem_filter.2 ⟨hx, hxa⟩, hxs⟩

theorem ordinary_of_mem_closure {states : StateSet} (ha : c.AllAtomic states) {s : Nat}
    (hs : s ∈ c.closure states.members) : c.Ordinary s := by
  obtain ⟨x, hx, hxs⟩ := hw.mem_closure.1 hs
  exact hw.ordinary_of_within (ha.ordinary hx) hxs

/-- Something lies below a composite state of the closure. -/
theorem exists_below_of_mem_closure {states : StateSet} (ha : c.AllAtomic states) {s : Nat}
    (hs : s ∈ c.closure states.members) (hc : c.IsComposite s) : ∃ a ∈ states, c.Below a s := by
  obtain ⟨a, haS, has⟩ := hw.mem_closure.1 hs
  rcases within_iff.1 has with rfl | hbelow
  · exact absurd hc (ha.not_composite haS)
  · exact ⟨a, haS, hbelow⟩

/-- Joinable states without children whose closure holds all regions of its parallel states have
a legal closure. -/
theorem legal_closure {states : StateSet} (ha : c.AllAtomic states)
    (hjoin : ∀ a ∈ states, ∀ b ∈ states, c.Joinable a b)
    (hregions : ∀ {p x}, p ∈ c.closure states.members → c.kind p = .parallel →
      x ∈ c.children p → x ∈ c.closure states.members) :
    c.Legal (c.closure states.members) := by
  refine ⟨hw.ordinary_of_mem_closure ha, ?_, ?_, fun hp hk x hx => hregions hp hk hx, ?_⟩
  · intro s p hs hp
    exact hw.closure_upward hs (hw.below_parent hp).within
  · intro s hs hk
    obtain ⟨a, haS, hbelow⟩ := hw.exists_below_of_mem_closure ha hs (.inl hk)
    obtain ⟨x, hx, hax⟩ := hw.exists_child_of_below hbelow
    have hxC := hw.mem_closure.2 ⟨a, haS, hax⟩
    refine ⟨x, ⟨hw.mem_children_of_within (ha.ordinary haS) hx hax, hxC⟩, ?_⟩
    rintro y ⟨hy, hyC⟩
    obtain ⟨b, hbS, hby⟩ := hw.mem_closure.1 hyC
    exact hw.child_eq_of_joinable (hjoin b hbS a haS) hk (hw.mem_children.1 hy).1 hx hby hax
  · intro s t hs ht hps hpt
    obtain ⟨a, haS, has⟩ := hw.mem_closure.1 hs
    obtain ⟨b, hbS, hbt⟩ := hw.mem_closure.1 ht
    exact hw.top_eq_of_joinable (hjoin a haS b hbS) hps hpt has hbt

/-- The notes of one walk: each state on the way up as a child of the next. -/
theorem mem_noteLinks {known : SortedMap Nat StateSet} {s p x : Nat} :
    x ∈ ((noteLinks s (c.ancestors s) known).get? p).getD ∅ ↔
      x ∈ (known.get? p).getD ∅ ∨ c.parent x = some p ∧ c.Within s x := by
  induction s using Nat.strong_induction_on generalizing known with
  | _ s ih =>
    cases hp : c.parent s with
    | none =>
      rw [ancestors_of_top hp]
      simp only [noteLinks]
      refine ⟨.inl, ?_⟩
      rintro (h | ⟨hx, hsx⟩)
      · exact h
      · rw [← eq_of_within_top hp hsx, hp] at hx
        cases hx
    | some q =>
      rw [hw.ancestors_of_parent hp, noteLinks, ih q (hw.parent_lt hp), SortedMap.get?_insert]
      have hsplit : c.parent x = some p ∧ c.Within s x ↔
          x = s ∧ p = q ∨ c.parent x = some p ∧ c.Within q x := by
        constructor
        · rintro ⟨hx, hsx⟩
          rcases within_iff.1 hsx with rfl | h
          · exact .inl ⟨rfl, Option.some.inj (hx.symm.trans hp)⟩
          · exact .inr ⟨hx, (hw.below_iff_within_parent hp).1 h⟩
        · rintro (⟨rfl, rfl⟩ | ⟨hx, hqx⟩)
          · exact ⟨hp, .refl x⟩
          · exact ⟨hx, hw.within_trans (hw.below_parent hp).within hqx⟩
      rw [hsplit]
      split
      · next hpq =>
        subst hpq
        simp only [Option.getD_some, StateSet.mem_insert]
        tauto
      · next hpq => tauto

theorem noteLinks_isSome {known : SortedMap Nat StateSet} {s p : Nat} :
    ((noteLinks s (c.ancestors s) known).get? p).isSome ↔
      (known.get? p).isSome ∨ c.Below s p := by
  induction s using Nat.strong_induction_on generalizing known with
  | _ s ih =>
    cases hp : c.parent s with
    | none => simp [ancestors_of_top hp, noteLinks, not_below_of_top hp]
    | some q =>
      rw [hw.ancestors_of_parent hp, noteLinks, ih q (hw.parent_lt hp), SortedMap.get?_insert,
        hw.below_iff_within_parent hp, within_iff]
      split
      · next hpq => simp [hpq]
      · next hpq =>
        have : q ≠ p := fun h => hpq h.symm
        simp [this]

theorem mem_activeChildren {states : List Nat} {p x : Nat} :
    x ∈ ((c.activeChildren states).get? p).getD ∅ ↔
      c.parent x = some p ∧ ∃ s ∈ states, c.Within s x := by
  have hfold : ∀ (states : List Nat) (known : SortedMap Nat StateSet),
      x ∈ ((states.foldl (fun known s => noteLinks s (c.ancestors s) known) known).get? p).getD ∅
        ↔ x ∈ (known.get? p).getD ∅ ∨ c.parent x = some p ∧ ∃ s ∈ states, c.Within s x := by
    intro states
    induction states with
    | nil => simp
    | cons s rest ih =>
      intro known
      rw [List.foldl_cons, ih, hw.mem_noteLinks]
      simp only [List.mem_cons, exists_eq_or_imp]
      tauto
  rw [activeChildren, hfold]
  simp

theorem activeChildren_isSome {states : List Nat} {p : Nat} :
    ((c.activeChildren states).get? p).isSome ↔ ∃ s ∈ states, c.Below s p := by
  have hfold : ∀ (states : List Nat) (known : SortedMap Nat StateSet),
      ((states.foldl (fun known s => noteLinks s (c.ancestors s) known) known).get? p).isSome
        ↔ (known.get? p).isSome ∨ ∃ s ∈ states, c.Below s p := by
    intro states
    induction states with
    | nil => simp
    | cons s rest ih =>
      intro known
      rw [List.foldl_cons, ih, hw.noteLinks_isSome]
      simp [or_assoc]
  rw [activeChildren, hfold]
  simp

theorem violation?_eq_none_iff {s : Nat} {children : StateSet}
    (hsub : ∀ x ∈ children, x ∈ c.children s) : c.violation? s children = none ↔
      (c.kind s = .parallel → ∀ x ∈ c.children s, x ∈ children) ∧
      (c.kind s ≠ .parallel → ∀ x ∈ children, ∀ y ∈ children, x = y) := by
  have hnodup : (c.children s).Nodup := (hw.children_ascending s).imp Nat.ne_of_lt
  unfold violation?
  by_cases hk : c.kind s = .parallel
  · simp only [hk, if_true, true_implies, ne_eq, not_true, false_implies, and_true]
    rw [← StateSet.length_le_size_iff hnodup hsub]
    simp
  · simp only [hk, if_false, false_implies, ne_eq, not_false_iff, true_implies, true_and]
    rw [← StateSet.size_le_one_iff]
    simp

theorem mem_activeChildren_of_allAtomic {states : StateSet} (ha : c.AllAtomic states)
    {p x : Nat} : x ∈ ((c.activeChildren states.members).get? p).getD ∅ ↔
      x ∈ c.children p ∧ x ∈ c.closure states.members := by
  rw [hw.mem_activeChildren, hw.mem_children, hw.mem_closure]
  constructor
  · rintro ⟨hp, hx⟩
    exact ⟨⟨hp, (hw.ordinary_of_mem_closure ha (hw.mem_closure.2 hx)).2⟩, hx⟩
  · rintro ⟨⟨hp, -⟩, hx⟩
    exact ⟨hp, hx⟩

theorem mem_tops {states : StateSet} {t : Nat} :
    t ∈ StateSet.ofList (states.members.map c.root) ↔
      c.parent t = none ∧ t ∈ c.closure states.members := by
  rw [StateSet.mem_ofList, List.mem_map, hw.mem_closure]
  constructor
  · rintro ⟨s, hs, rfl⟩
    obtain ⟨u, hu, hsu⟩ := hw.exists_top s
    rw [hw.root_eq hu hsu]
    exact ⟨hu, s, hs, hsu⟩
  · rintro ⟨ht, s, hs, hst⟩
    exact ⟨s, hs, hw.root_eq ht hst⟩

/-- The rules of single states are broken nowhere exactly if they hold of the composite states
of the closure. -/
theorem violation?_entries_iff {states : StateSet} (ha : c.AllAtomic states) :
    (∀ e ∈ (c.activeChildren states.members).entries, c.violation? e.1 e.2 = none) ↔
      ∀ s ∈ c.closure states.members, c.IsComposite s →
        (c.kind s = .parallel → ∀ x ∈ c.children s, x ∈ c.closure states.members) ∧
        (c.kind s ≠ .parallel → ∀ x ∈ c.children s, x ∈ c.closure states.members →
          ∀ y ∈ c.children s, y ∈ c.closure states.members → x = y) := by
  have hentry : ∀ {s children}, (c.activeChildren states.members).get? s = some children →
      (c.violation? s children = none ↔
        (c.kind s = .parallel → ∀ x ∈ c.children s, x ∈ c.closure states.members) ∧
        (c.kind s ≠ .parallel → ∀ x ∈ c.children s, x ∈ c.closure states.members →
          ∀ y ∈ c.children s, y ∈ c.closure states.members → x = y)) := by
    intro s children hget
    have hmem : ∀ {x}, x ∈ children ↔ x ∈ c.children s ∧ x ∈ c.closure states.members := by
      intro x
      rw [← hw.mem_activeChildren_of_allAtomic ha, hget, Option.getD_some]
    rw [hw.violation?_eq_none_iff (fun x hx => (hmem.1 hx).1)]
    simp only [hmem, and_imp]
    constructor
    · rintro ⟨hpar, hone⟩
      exact ⟨fun hk x hx => (hpar hk x hx).2, hone⟩
    · rintro ⟨hpar, hone⟩
      exact ⟨fun hk x hx => ⟨hx, hpar hk x hx⟩, hone⟩
  constructor
  · intro h s hs hc
    -- Something active lies below `s`, so that its children have an entry.
    obtain ⟨a, haS, hbelow⟩ := hw.exists_below_of_mem_closure ha hs hc
    obtain ⟨children, hget⟩ :=
      Option.isSome_iff_exists.1 (hw.activeChildren_isSome.2 ⟨a, haS, hbelow⟩)
    exact (hentry hget).1 (h (s, children) (SortedMap.mem_entries_iff.2 hget))
  · rintro h ⟨s, children⟩ he
    have hget := SortedMap.mem_entries_iff.1 he
    obtain ⟨a, haS, hbelow⟩ := hw.activeChildren_isSome.1 (Option.isSome_of_eq_some hget)
    exact (hentry hget).2 (h s (hw.mem_closure.2 ⟨a, haS, hbelow.within⟩)
      (hw.composite_of_below hbelow))

/-- No rule is broken by states without children exactly if their closure is legal. -/
theorem violations_eq_nil_iff {states : StateSet} (ha : c.AllAtomic states) :
    c.violations states = [] ↔ c.Legal (c.closure states.members) := by
  have htops : (if 1 < (StateSet.ofList (states.members.map c.root)).size then
        [Violation.multipleTopLevel
          (c.idsOf (StateSet.ofList (states.members.map c.root)).members)]
      else []) = [] ↔ ∀ s ∈ c.closure states.members, c.parent s = none →
        ∀ t ∈ c.closure states.members, c.parent t = none → s = t := by
    rw [ite_eq_right_iff]
    simp only [List.cons_ne_nil, imp_false, Nat.not_lt, StateSet.size_le_one_iff, hw.mem_tops,
      and_imp]
    exact ⟨fun h s hs hps t ht hpt => h s hps hs t hpt ht,
      fun h s hps hs t hpt ht => h s hs hps t ht hpt⟩
  unfold violations
  rw [List.append_eq_nil_iff, List.filterMap_eq_nil_iff, hw.violation?_entries_iff ha, htops]
  constructor
  · rintro ⟨hrules, htop⟩
    refine ⟨hw.ordinary_of_mem_closure ha, ?_, ?_, ?_, fun hs ht hps hpt => htop _ hs hps _ ht hpt⟩
    · intro s p hs hp
      exact hw.closure_upward hs (hw.below_parent hp).within
    · intro s hs hk
      obtain ⟨a, haS, hbelow⟩ := hw.exists_below_of_mem_closure ha hs (.inl hk)
      obtain ⟨x, hx, hax⟩ := hw.exists_child_of_below hbelow
      have hxC := hw.mem_closure.2 ⟨a, haS, hax⟩
      have hxc := hw.mem_children_of_within (ha.ordinary haS) hx hax
      refine ⟨x, ⟨hxc, hxC⟩, ?_⟩
      rintro y ⟨hyc, hyC⟩
      exact (hrules s hs (.inl hk)).2 (by simp [hk]) y hyc hyC x hxc hxC
    · intro s hs hk
      exact (hrules s hs (.inr hk)).1 hk
  · intro hl
    refine ⟨?_, fun s hs hps t ht hpt => hl.top hs ht hps hpt⟩
    intro s hs hc
    refine ⟨hl.parallel hs, ?_⟩
    intro hk x hx hxC y hy hyC
    exact (hl.compound hs (hc.resolve_right hk)).unique ⟨hx, hxC⟩ ⟨hy, hyC⟩

end WellFormed

end Statechart.Chart
