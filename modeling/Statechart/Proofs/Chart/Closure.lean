import Statechart.Proofs.Chart.Build
import Statechart.Proofs.Collections

/-!
What a closure contains. Each walk upward stops where an earlier one has been; nothing is missed,
since what was collected is closed upward as far as the bounds allow. So a closure is what its
definition says, in whatever order the states are gone through.
-/

namespace Statechart.Chart

/-- `a` is `s`, or it lies above `s` and no bound lies on the way up to it, itself included. -/
def Reaches (c : Chart) (bounds : StateSet) (s a : Nat) : Prop :=
  c.Within s a ∧ ∀ x, c.Below s x → c.Within x a → x ∉ bounds

variable {c : Chart}

namespace WellFormed

variable (hw : c.WellFormed)

include hw

theorem reaches_refl (bounds : StateSet) (s : Nat) : c.Reaches bounds s s :=
  ⟨.refl s, fun _ hsx hxs _ => hw.not_within_of_below hsx hxs⟩

theorem reaches_parent {bounds : StateSet} {s p : Nat} (hp : c.parent s = some p)
    (hpb : p ∉ bounds) : c.Reaches bounds s p := by
  refine ⟨(hw.below_parent hp).within, ?_⟩
  intro x hsx hxp
  have hpx := (hw.below_iff_within_parent hp).1 hsx
  rw [hw.within_antisymm hxp hpx]
  exact hpb

theorem reaches_trans {bounds : StateSet} {s t a : Nat} (hst : c.Reaches bounds s t)
    (hta : c.Reaches bounds t a) : c.Reaches bounds s a := by
  refine ⟨hw.within_trans hst.1 hta.1, ?_⟩
  intro x hsx hxa
  rcases hw.within_or_below hsx.within hst.1 with hxt | htx
  · exact hst.2 x hsx hxt
  · exact hta.2 x htx hxa

theorem reaches_cases {bounds : StateSet} {s a : Nat} (h : c.Reaches bounds s a) :
    a = s ∨ ∃ p, c.parent s = some p ∧ p ∉ bounds ∧ c.Reaches bounds p a := by
  obtain ⟨hsa, hfree⟩ := h
  rcases within_iff.1 hsa with rfl | hsa
  · exact .inl rfl
  · obtain ⟨p, hp, hpa⟩ := hw.exists_parent_of_below hsa
    have hsp := hw.below_parent hp
    refine .inr ⟨p, hp, hfree p hsp hpa, hpa, ?_⟩
    intro x hpx hxa
    exact hfree x (hw.below_of_below_of_within hsp hpx.within) hxa

/-- A walk upward from `s`, which is known already, adds what `s` reaches, provided that
nothing it reaches is missing above a state known before. -/
theorem mem_gather {bounds known : StateSet} {s : Nat} (hs : s ∈ known)
    (hknown : ∀ x ∈ known, c.Below s x → c.Reaches bounds s x → ∀ a, c.Reaches bounds x a →
      a ∈ known) (a : Nat) :
    a ∈ gather bounds (c.ancestors s) known ↔ a ∈ known ∨ c.Reaches bounds s a := by
  induction s using Nat.strong_induction_on generalizing known with
  | _ s ih =>
    cases hp : c.parent s with
    | none =>
      rw [ancestors_of_top hp]
      simp only [gather]
      refine ⟨.inl, ?_⟩
      rintro (h | ⟨hsa, -⟩)
      · exact h
      · rcases within_iff.1 hsa with rfl | hsa
        · exact hs
        · exact absurd hsa (not_below_of_top hp)
    | some p =>
      have hbelow := hw.below_parent hp
      rw [hw.ancestors_of_parent hp]
      simp only [gather]
      split
      · next hstop =>
        refine ⟨.inl, ?_⟩
        rintro (h | h)
        · exact h
        · rcases hw.reaches_cases h with rfl | ⟨q, hq, hqb, hqa⟩
          · exact hs
          · -- The walk stops at a state that an earlier one has passed.
            obtain rfl : p = q := Option.some.inj (hp.symm.trans hq)
            exact hknown p (hstop.resolve_left hqb) hbelow (hw.reaches_parent hp hqb) a hqa
      · next hgo =>
        rw [not_or] at hgo
        have hsp := hw.reaches_parent hp hgo.1
        have hnext : ∀ x ∈ known.insert p, c.Below p x → c.Reaches bounds p x →
            ∀ a, c.Reaches bounds x a → a ∈ known.insert p := by
          intro x hx hpx hreach a hxa
          rcases StateSet.mem_insert.1 hx with rfl | hx
          · exact absurd hpx (hw.not_below_self x)
          · exact StateSet.mem_insert.2 (.inr (hknown x hx
              (hw.below_of_below_of_within hbelow hpx.within) (hw.reaches_trans hsp hreach) a hxa))
        rw [ih p (hw.parent_lt hp) (StateSet.mem_insert.2 (.inl rfl)) hnext,
          StateSet.mem_insert]
        constructor
        · rintro ((rfl | h) | h)
          · exact .inr hsp
          · exact .inl h
          · exact .inr (hw.reaches_trans hsp h)
        · rintro (h | h)
          · exact .inl (.inr h)
          · rcases hw.reaches_cases h with rfl | ⟨q, hq, -, hqa⟩
            · exact .inl (.inr hs)
            · obtain rfl : p = q := Option.some.inj (hp.symm.trans hq)
              exact .inr hqa

theorem mem_closureBelow {states : List Nat} {bounds : StateSet} {a : Nat} :
    a ∈ c.closureBelow states bounds ↔ ∃ s ∈ states, c.Reaches bounds s a := by
  -- Between two walks what is known is closed.
  have hwalk : ∀ (known : StateSet) s,
      (∀ x ∈ known, ∀ a, c.Reaches bounds x a → a ∈ known) → ∀ a,
      (a ∈ gather bounds (c.ancestors s) (known.insert s) ↔
        a ∈ known ∨ c.Reaches bounds s a) := by
    intro known s hclosed a
    have hknown : ∀ x ∈ known.insert s, c.Below s x → c.Reaches bounds s x →
        ∀ a, c.Reaches bounds x a → a ∈ known.insert s := by
      intro x hx hsx _ a hxa
      rcases StateSet.mem_insert.1 hx with rfl | hx
      · exact absurd hsx (hw.not_below_self x)
      · exact StateSet.mem_insert.2 (.inr (hclosed x hx a hxa))
    rw [hw.mem_gather (StateSet.mem_insert.2 (.inl rfl)) hknown, StateSet.mem_insert]
    constructor
    · rintro ((rfl | h) | h)
      · exact .inr (hw.reaches_refl bounds a)
      · exact .inl h
      · exact .inr h
    · rintro (h | h)
      · exact .inl (.inr h)
      · exact .inr h
  rw [closureBelow, StateSet.mem_foldl (fun known s _ => hwalk known s)]
  · simp
  · intro known s _ hclosed x hx a hxa
    rw [hwalk known s hclosed] at hx ⊢
    rcases hx with hx | hx
    · exact .inl (hclosed x hx a hxa)
    · exact .inr (hw.reaches_trans hx hxa)
  · exact fun x hx => absurd hx (StateSet.not_mem_empty x)

/-- A closure holds the given states and what lies above them. -/
theorem mem_closure {states : List Nat} {a : Nat} :
    a ∈ c.closure states ↔ ∃ s ∈ states, c.Within s a := by
  simp [closure, hw.mem_closureBelow, Reaches]

theorem closure_upward {states : List Nat} {s a : Nat} (hs : s ∈ c.closure states)
    (h : c.Within s a) : a ∈ c.closure states := by
  obtain ⟨x, hx, hxs⟩ := hw.mem_closure.1 hs
  exact hw.mem_closure.2 ⟨x, hx, hw.within_trans hxs h⟩

theorem mem_closure_of_mem {states : List Nat} {s : Nat} (h : s ∈ states) :
    s ∈ c.closure states :=
  hw.mem_closure.2 ⟨s, h, .refl s⟩

/-- What a state reaches is the state itself and what lies above it without a bound there or on
the way. -/
theorem reaches_iff {bounds : StateSet} {s a : Nat} :
    c.Reaches bounds s a ↔
      a = s ∨ c.Below s a ∧ a ∉ bounds ∧ ∀ x, c.Below s x → c.Below x a → x ∉ bounds := by
  constructor
  · rintro ⟨hsa, hfree⟩
    rcases within_iff.1 hsa with rfl | hsa
    · exact .inl rfl
    · exact .inr ⟨hsa, hfree a hsa (.refl a), fun x hsx hxa => hfree x hsx hxa.within⟩
  · rintro (rfl | ⟨hsa, ha, hbetween⟩)
    · exact hw.reaches_refl bounds a
    · refine ⟨hsa.within, ?_⟩
      intro x hsx hxa
      rcases within_iff.1 hxa with rfl | hxa
      · exact ha
      · exact hbetween x hsx hxa

/-- Neither the order of the states nor how often one is named matters. -/
theorem closureBelow_congr {states states' : List Nat} (h : ∀ s, s ∈ states ↔ s ∈ states')
    (bounds : StateSet) : c.closureBelow states bounds = c.closureBelow states' bounds := by
  apply StateSet.ext
  intro a
  simp only [hw.mem_closureBelow, h]

/-- Nothing is added to what is closed. -/
theorem closure_closure (states : List Nat) :
    c.closure (c.closure states).members = c.closure states := by
  apply StateSet.ext
  intro a
  rw [hw.mem_closure]
  constructor
  · rintro ⟨s, hs, hsa⟩
    exact hw.closure_upward hs hsa
  · intro ha
    exact ⟨a, ha, .refl a⟩

end WellFormed

/-- Of a chart that was built, a closure below bounds is the given states with those above them
that are reached without meeting a bound. It depends on nothing but which states are given, and
without bounds it is closed. -/
theorem closureBelow_of_build {o : Outline} (hbuild : o.build = .ok c) :
    (∀ states bounds a, a ∈ c.closureBelow states bounds ↔
      ∃ s ∈ states, a = s ∨
        c.Below s a ∧ a ∉ bounds ∧ ∀ x, c.Below s x → c.Below x a → x ∉ bounds) ∧
      (∀ states states' bounds, (∀ s, s ∈ states ↔ s ∈ states') →
        c.closureBelow states bounds = c.closureBelow states' bounds) ∧
      ∀ states, c.closureBelow (c.closureBelow states ∅).members ∅ = c.closureBelow states ∅ := by
  have hw := (Outline.wellFormed_of_build hbuild).1
  refine ⟨?_, ?_, hw.closure_closure⟩
  · intro states bounds a
    rw [hw.mem_closureBelow]
    simp only [hw.reaches_iff]
  · intro states states' bounds h
    exact hw.closureBelow_congr h bounds

/-- In the player the walk from `loud` ends below the bound `on`, also if `on` has been collected
for itself by then; and the order does not matter. -/
theorem closureBelow_of_build_player :
    let c := Outline.player.chart
    5 ∈ c.closureBelow [6, 1] (.ofList [0]) ∧ 0 ∉ c.closureBelow [6, 1] (.ofList [0]) ∧
      c.closureBelow [0, 6, 0] (.ofList [0]) = c.closureBelow [6, 0] (.ofList [0]) ∧
      c.closureBelow (c.closureBelow [3, 6] ∅).members ∅ = c.closureBelow [3, 6] ∅ := by
  obtain ⟨hmem, horder, hclosed⟩ := closureBelow_of_build Outline.build_player
  have hw := (Outline.wellFormed_of_build Outline.build_player).1
  refine ⟨?_, ?_, ?_, hclosed [3, 6]⟩
  · have hsound : Outline.player.chart.Below 6 5 := isDescendant_iff.1 (by decide +kernel)
    rw [hmem]
    refine ⟨6, by simp, .inr ⟨hsound, by simp, ?_⟩⟩
    intro x hx hx5
    -- Nothing lies between the two.
    have hlt := hw.below_lt hx
    have hgt := hw.below_lt hx5
    omega
  · rw [hmem]
    simp
  · apply horder
    simp

end Statechart.Chart
