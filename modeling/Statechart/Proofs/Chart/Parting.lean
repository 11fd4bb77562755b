import Statechart.Chart.Validation
import Statechart.Proofs.Chart.Tree

/-!
Where two branches part. Two states of which neither is above the other either lie in different
trees, or their branches part at the innermost state above both. If that state is parallel they
are orthogonal and can be active together; if it is compound they cannot.
-/

namespace Statechart.Chart

/-- The branches of `a` and `b` part at `p`: they go through different nodes below it. -/
def PartAt (c : Chart) (a b p : Nat) : Prop :=
  ∃ x y, c.parent x = some p ∧ c.parent y = some p ∧ x ≠ y ∧ c.Within a x ∧ c.Within b y

/-- `a` and `b` lie in different regions of a parallel state. -/
def Orthogonal (c : Chart) (a b : Nat) : Prop :=
  ∃ p, c.kind p = .parallel ∧ c.PartAt a b p

/-- Nothing about their places in the tree keeps `a` and `b` from being active together. -/
def Joinable (c : Chart) (a b : Nat) : Prop :=
  c.Within a b ∨ c.Within b a ∨ c.Orthogonal a b

variable {c : Chart} {a b p : Nat}

theorem PartAt.symm (h : c.PartAt a b p) : c.PartAt b a p := by
  obtain ⟨x, y, hx, hy, hxy, ha, hb⟩ := h
  exact ⟨y, x, hy, hx, hxy.symm, hb, ha⟩

theorem Orthogonal.symm (h : c.Orthogonal a b) : c.Orthogonal b a := by
  obtain ⟨p, hp, hpart⟩ := h
  exact ⟨p, hp, hpart.symm⟩

theorem Joinable.symm (h : c.Joinable a b) : c.Joinable b a := by
  rcases h with h | h | h
  · exact .inr (.inl h)
  · exact .inl h
  · exact .inr (.inr h.symm)

theorem Orthogonal.joinable (h : c.Orthogonal a b) : c.Joinable a b :=
  .inr (.inr h)

theorem Joinable.refl (a : Nat) : c.Joinable a a :=
  .inl (.refl a)

theorem orthogonal_of_children {x y : Nat} (hp : c.kind p = .parallel)
    (hx : c.parent x = some p) (hy : c.parent y = some p) (hxy : x ≠ y) : c.Orthogonal x y :=
  ⟨p, hp, x, y, hx, hy, hxy, .refl x, .refl y⟩

/-- If neither state is above the other, what holds both is properly above both. -/
theorem below_of_within_both (ha : ¬ (a = b ∨ c.isDescendant b a = true))
    (hb : ¬ c.isDescendant a b = true) {x : Nat} (hax : c.Within a x) (hbx : c.Within b x) :
    c.Below a x ∧ c.Below b x := by
  rw [isDescendant_iff] at ha hb
  rcases within_iff.1 hax with rfl | hax
  · rcases within_iff.1 hbx with rfl | hbx
    · exact absurd (.inl rfl) ha
    · exact absurd (.inr hbx) ha
  · rcases within_iff.1 hbx with rfl | hbx
    · exact absurd hax hb
    · exact ⟨hax, hbx⟩

theorem lca_eq_none_iff : c.lca a b = none ↔ ∀ x, c.Within a x → ¬ c.Within b x := by
  unfold lca
  split
  · next h =>
    have hba : c.Within b a := within_iff.2 (h.imp Eq.symm isDescendant_iff.1)
    constructor
    · rintro ⟨⟩
    · intro h
      exact absurd hba (h a (.refl a))
  · next h =>
    split
    · next h' =>
      constructor
      · rintro ⟨⟩
      · intro h
        exact absurd (.refl b) (h b (isDescendant_iff.1 h').within)
    · next h' =>
      dsimp only
      rw [List.find?_eq_none]
      simp only [decide_eq_true_eq]
      constructor
      · intro hnone x hax hbx
        obtain ⟨hax, hbx⟩ := below_of_within_both h h' hax hbx
        exact hnone x hbx hax
      · intro hnone x hbx hax
        exact hnone x (Below.within hax) (Below.within hbx)

namespace WellFormed

variable (hw : c.WellFormed)

include hw

theorem lca_eq_some_iff {m : Nat} : c.lca a b = some m ↔
    c.Within a m ∧ c.Within b m ∧ ∀ x, c.Within a x → c.Within b x → c.Within m x := by
  -- The three answers of `lca` all satisfy the right-hand side, which has one solution at most.
  have hunique : ∀ {m n}, (c.Within a m ∧ c.Within b m ∧
      ∀ x, c.Within a x → c.Within b x → c.Within m x) → c.Within a n → c.Within b n →
      (∀ x, c.Within a x → c.Within b x → c.Within n x) → m = n := by
    rintro m n ⟨ha, hb, hm⟩ ha' hb' hn
    exact hw.within_antisymm (hm n ha' hb') (hn m ha hb)
  unfold lca
  split
  · next h =>
    have hba : c.Within b a := within_iff.2 (h.imp Eq.symm isDescendant_iff.1)
    constructor
    · rintro ⟨⟩
      exact ⟨.refl a, hba, fun x hx _ => hx⟩
    · intro h
      rw [hunique h (.refl a) hba (fun x hx _ => hx)]
  · next h =>
    split
    · next h' =>
      have hab := (isDescendant_iff.1 h').within
      constructor
      · rintro ⟨⟩
        exact ⟨hab, .refl b, fun x _ hx => hx⟩
      · intro h
        rw [hunique h hab (.refl b) (fun x _ hx => hx)]
    · next h' =>
      dsimp only
      rw [hw.find?_chain_eq_some_iff (hw.ancestors_pairwise b)]
      simp only [decide_eq_true_eq]
      constructor
      · rintro ⟨hbm, ham, hinner⟩
        refine ⟨Below.within ham, Below.within hbm, ?_⟩
        intro x hax hbx
        obtain ⟨hax, hbx⟩ := below_of_within_both h h' hax hbx
        exact hinner x hbx hax
      · rintro ⟨ham, hbm, hinner⟩
        obtain ⟨ham, hbm⟩ := below_of_within_both h h' ham hbm
        exact ⟨hbm, ham, fun x hbx hax => hinner x (Below.within hax) (Below.within hbx)⟩

theorem PartAt.below (h : c.PartAt a b p) : c.Below a p ∧ c.Below b p := by
  obtain ⟨x, y, hx, hy, -, ha, hb⟩ := h
  exact ⟨hw.below_of_within_child hx ha, hw.below_of_within_child hy hb⟩

theorem PartAt.mono {a' b' : Nat} (h : c.PartAt a b p) (ha : c.Within a' a)
    (hb : c.Within b' b) : c.PartAt a' b' p := by
  obtain ⟨x, y, hx, hy, hxy, hax, hby⟩ := h
  exact ⟨x, y, hx, hy, hxy, hw.within_trans ha hax, hw.within_trans hb hby⟩

theorem Orthogonal.mono {a' b' : Nat} (h : c.Orthogonal a b) (ha : c.Within a' a)
    (hb : c.Within b' b) : c.Orthogonal a' b' := by
  obtain ⟨p, hp, hpart⟩ := h
  exact ⟨p, hp, PartAt.mono hw hpart ha hb⟩

theorem not_within_of_partAt (h : c.PartAt a b p) : ¬ c.Within a b := by
  obtain ⟨x, y, hx, hy, hxy, ha, hb⟩ := h
  intro hab
  exact hxy (hw.child_unique hx hy ha (hw.within_trans hab hb))

theorem not_within_of_orthogonal (h : c.Orthogonal a b) : ¬ c.Within a b := by
  obtain ⟨p, -, hpart⟩ := h
  exact hw.not_within_of_partAt hpart

/-- Branches that go through one state below which they are apart part there. -/
theorem partAt_of_below {x : Nat} (hx : c.parent x = some p) (ha : c.Within a x)
    (hb : c.Below b p) (hnot : ¬ c.Within b x) : c.PartAt a b p := by
  obtain ⟨y, hy, hby⟩ := hw.exists_child_of_below hb
  refine ⟨x, y, hx, hy, ?_, ha, hby⟩
  rintro rfl
  exact hnot hby

/-- Two branches part at one state at most. -/
theorem partAt_unique {q : Nat} (hp : c.PartAt a b p) (hq : c.PartAt a b q) : p = q := by
  -- If one of the two were below the other, both branches would pass it on one side.
  have hkey : ∀ {p q}, c.PartAt a b p → c.PartAt a b q → ¬ c.Below p q := by
    rintro p q hp ⟨x, y, hx, hy, hxy, ha, hb⟩ hpq
    obtain ⟨z, hz, hpz⟩ := hw.exists_child_of_below hpq
    obtain ⟨hap, hbp⟩ := PartAt.below hw hp
    apply hxy
    rw [hw.child_unique hx hz ha (hw.within_trans hap.within hpz),
      hw.child_unique hy hz hb (hw.within_trans hbp.within hpz)]
  have hap := (PartAt.below hw hp).1.within
  have haq := (PartAt.below hw hq).1.within
  rcases hw.within_or_below hap haq with h | h
  · rcases within_iff.1 h with rfl | h
    · rfl
    · exact absurd h (hkey hp hq)
  · exact absurd h (hkey hq hp)

/-- Two states with a state above both are one above the other, or their branches part. -/
theorem within_or_partAt {x : Nat} (ha : c.Within a x) (hb : c.Within b x) :
    c.Within a b ∨ c.Within b a ∨ ∃ p, c.PartAt a b p := by
  cases hm : c.lca a b with
  | none => exact absurd hb (lca_eq_none_iff.1 hm x ha)
  | some m =>
    obtain ⟨ham, hbm, hinner⟩ := hw.lca_eq_some_iff.1 hm
    rcases within_iff.1 ham with rfl | ham
    · exact .inr (.inl hbm)
    · rcases within_iff.1 hbm with rfl | hbm
      · exact .inl ham.within
      · obtain ⟨y, hy, hay⟩ := hw.exists_child_of_below ham
        refine .inr (.inr ⟨m, hw.partAt_of_below hy hay hbm ?_⟩)
        intro hby
        exact hw.not_within_of_below (hw.below_parent hy) (hinner y hay hby)

/-- Branches part at the innermost state above both. -/
theorem lca_of_partAt (h : c.PartAt a b p) : c.lca a b = some p := by
  have hbelow := PartAt.below hw h
  refine hw.lca_eq_some_iff.2 ⟨hbelow.1.within, hbelow.2.within, ?_⟩
  intro q haq hbq
  rcases hw.within_or_below hbelow.1.within haq with hpq | hqp
  · exact hpq
  · obtain ⟨x, y, hx, hy, hxy, hax, hby⟩ := h
    obtain ⟨z, hz, hqz⟩ := hw.exists_child_of_below hqp
    apply absurd _ hxy
    rw [hw.child_unique hx hz hax (hw.within_trans haq hqz),
      hw.child_unique hy hz hby (hw.within_trans hbq hqz)]

theorem areOrthogonal_iff : c.areOrthogonal a b = true ↔ c.Orthogonal a b := by
  unfold areOrthogonal
  simp only [Bool.and_eq_true, Bool.not_eq_true', Bool.or_eq_false_iff, decide_eq_false_iff_not]
  constructor
  · rintro ⟨⟨⟨hne, hab⟩, hba⟩, hlca⟩
    cases hm : c.lca a b with
    | none => simp [hm] at hlca
    | some m =>
      simp only [hm, decide_eq_true_eq] at hlca
      obtain ⟨ham, hbm, -⟩ := hw.lca_eq_some_iff.1 hm
      rcases hw.within_or_partAt ham hbm with h | h | ⟨p, hpart⟩
      · rcases within_iff.1 h with h | h
        · exact absurd h hne
        · simp [isDescendant_iff.2 h] at hab
      · rcases within_iff.1 h with h | h
        · exact absurd h.symm hne
        · simp [isDescendant_iff.2 h] at hba
      · have hpm := hw.lca_of_partAt hpart
        rw [hm, Option.some.injEq] at hpm
        exact ⟨p, hpm ▸ hlca, hpart⟩
  · rintro ⟨p, hp, hpart⟩
    have hnot : ∀ {a b}, c.PartAt a b p → c.isDescendant a b = false := by
      intro a b h
      rw [Bool.eq_false_iff]
      exact fun hd => hw.not_within_of_partAt h (isDescendant_iff.1 hd).within
    refine ⟨⟨⟨?_, hnot hpart⟩, hnot hpart.symm⟩, ?_⟩
    · rintro rfl
      exact hw.not_within_of_partAt hpart (.refl _)
    · simp [hw.lca_of_partAt hpart, hp]

theorem areCompatible_iff {targets : List Nat} :
    c.areCompatible targets = true ↔ targets.Pairwise c.Orthogonal := by
  induction targets with
  | nil => simp [areCompatible]
  | cons a rest ih =>
    simp [areCompatible, ih, List.pairwise_cons, hw.areOrthogonal_iff]

/-- Joinable states lie within one child of a compound state above both. -/
theorem child_eq_of_joinable {a b p x y : Nat} (h : c.Joinable a b) (hk : c.kind p = .compound)
    (hx : c.parent x = some p) (hy : c.parent y = some p) (hax : c.Within a x)
    (hby : c.Within b y) : x = y := by
  by_contra hxy
  have hpart : c.PartAt a b p := ⟨x, y, hx, hy, hxy, hax, hby⟩
  rcases h with h | h | ⟨q, hq, hpartq⟩
  · exact hw.not_within_of_partAt hpart h
  · exact hw.not_within_of_partAt hpart.symm h
  · rw [← hw.partAt_unique hpart hpartq, hk] at hq
    cases hq

/-- What lies within a state that is joinable with `b` is joinable with `b`, unless `b` lies
below that state. -/
theorem joinable_of_within {a' : Nat} (h : c.Joinable a b) (ha : c.Within a' a)
    (hb : ¬ c.Below b a) : c.Joinable a' b := by
  rcases h with h | h | h
  · exact .inl (hw.within_trans ha h)
  · rcases within_iff.1 h with rfl | h
    · exact .inl ha
    · exact absurd h hb
  · exact (Orthogonal.mono hw h ha (.refl b)).joinable

/-- A region of a parallel state `p` is joinable with whatever is joinable with something else
below `p` and does not lie in the region. -/
theorem joinable_region {e r w : Nat} (hp : c.kind p = .parallel) (hr : c.parent r = some p)
    (he : c.Below e p) (hwe : c.Joinable w e) (hwr : ¬ c.Within w r) :
    c.Joinable r w := by
  -- Below `p` the branch of `w` goes through another region.
  have hinside : c.Below w p → c.Joinable r w := fun hwp =>
    Orthogonal.joinable ⟨p, hp, hw.partAt_of_below hr (.refl r) hwp hwr⟩
  rcases hwe with h | h | ⟨q, hq, hpart⟩
  · exact hinside (hw.below_of_within_of_below h he)
  · rcases hw.within_or_below he.within h with h | h
    · exact .inl (hw.within_trans (hw.below_parent hr).within h)
    · exact hinside h
  · obtain ⟨hwq, heq⟩ := PartAt.below hw hpart
    rcases hw.within_or_below he.within heq.within with hpq | hqp
    · rcases within_iff.1 hpq with rfl | hpq
      · exact hinside hwq
      · -- `p` lies on the branch of `e` below the parting of `w` and `e`.
        obtain ⟨x, y, hx, hy, hxy, hwx, hey⟩ := hpart
        obtain ⟨z, hz, hpz⟩ := hw.exists_child_of_below hpq
        have hyz := hw.child_unique hy hz hey (hw.within_trans he.within hpz)
        subst hyz
        have hry : c.Within r y := hw.within_trans (hw.below_parent hr).within hpz
        exact Orthogonal.joinable ⟨q, hq, y, x, hy, hx, hxy.symm, hry, hwx⟩
    · exact hinside (hw.below_of_below_of_within hwq hqp.within)

end WellFormed

end Statechart.Chart
