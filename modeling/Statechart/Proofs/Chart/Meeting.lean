import Mathlib.Logic.Relation
import Statechart.Proofs.Chart.Legality

/-!
Where two branches meet. The links from states to those around them make a chart a forest: what
holds two states both is a chain, and its innermost member is where their branches meet. That is
what `lca` finds, whichever of the two states comes first; it finds nothing exactly if the two
stand in different trees.
-/

namespace Statechart.Chart

/-- `s` is `a` or stands somewhere inside it: links to parents lead from `s` to `a`. -/
def EnclosedBy (c : Chart) : Nat → Nat → Prop :=
  Relation.ReflTransGen fun x p => c.parent x = some p

variable {c : Chart} {a b : Nat}

namespace WellFormed

variable (hw : c.WellFormed)

include hw

/-- The walk that lists the states above `s` follows the links, and follows them to the end. -/
theorem enclosedBy_iff {s : Nat} : c.EnclosedBy s a ↔ c.Within s a := by
  constructor
  · intro h
    induction h with
    | refl => exact .refl s
    | tail _ hp ih => exact hw.within_trans ih (hw.below_parent hp).within
  · intro h
    induction s using Nat.strong_induction_on with
    | _ s ih =>
      rcases within_iff.1 h with rfl | hbelow
      · exact .refl
      · obtain ⟨p, hp, hpa⟩ := hw.exists_parent_of_below hbelow
        exact .head hp (ih p (hw.parent_lt hp) hpa)

/-- The cases of `lca` treat the two states differently, but what is found does not depend on
which of them comes first. -/
theorem lca_comm (a b : Nat) : c.lca a b = c.lca b a := by
  apply Option.ext
  intro m
  rw [hw.lca_eq_some_iff, hw.lca_eq_some_iff]
  constructor
  · rintro ⟨ham, hbm, hinner⟩
    exact ⟨hbm, ham, fun x hbx hax => hinner x hax hbx⟩
  · rintro ⟨hbm, ham, hinner⟩
    exact ⟨ham, hbm, fun x hax hbx => hinner x hbx hax⟩

/-- Two nodes that nothing holds both stand in different trees. -/
theorem lca_eq_none_iff_trees (ha : a < c.nodes.size) (hb : b < c.nodes.size) :
    c.lca a b = none ↔
      ∃ t ∈ c.topLevel, ∃ u ∈ c.topLevel, t ≠ u ∧ c.Within a t ∧ c.Within b u := by
  rw [lca_eq_none_iff]
  constructor
  · intro hnone
    obtain ⟨t, ht, hat⟩ := hw.exists_mem_topLevel ha
    obtain ⟨u, hu, hbu⟩ := hw.exists_mem_topLevel hb
    refine ⟨t, ht, u, hu, ?_, hat, hbu⟩
    rintro rfl
    exact hnone t hat hbu
  · rintro ⟨t, ht, u, hu, htu, hat, hbu⟩ x hax hbx
    exact htu (hw.top_eq_of_within (hw.mem_topLevel.1 ht).2 (hw.mem_topLevel.1 hu).2 hat hbu
      hax hbx)

end WellFormed

/-- Of a chart that was built, `lca` finds the innermost node that two nodes are or stand inside,
in whichever order they are given. There is none exactly if they stand in the trees of different
states of the top level. -/
theorem lca_of_build {o : Outline} (hbuild : o.build = .ok c) (ha : a ∈ c.states)
    (hb : b ∈ c.states) :
    c.lca a b = c.lca b a ∧
      (∀ m, c.lca a b = some m ↔ c.EnclosedBy a m ∧ c.EnclosedBy b m ∧
        ∀ x, c.EnclosedBy a x → c.EnclosedBy b x → c.EnclosedBy m x) ∧
      (c.lca a b = none ↔ ∃ t ∈ c.topLevel, ∃ u ∈ c.topLevel,
        t ≠ u ∧ c.EnclosedBy a t ∧ c.EnclosedBy b u) := by
  have hw := (Outline.wellFormed_of_build hbuild).1
  simp only [hw.enclosedBy_iff]
  exact ⟨hw.lca_comm a b, fun m => hw.lca_eq_some_iff,
    hw.lca_eq_none_iff_trees (List.mem_range.1 ha) (List.mem_range.1 hb)⟩

/-- In the player the branches of `playing` and `loud`, in two regions of `on`, meet at `on`: what
holds both holds `on`. Those of `off` and the history of `on` do not meet, since `on` and `off` are
two states of the top level. -/
theorem lca_of_build_player :
    let c := Outline.player.chart
    (c.lca 3 6 = some 0 ∧ c.lca 6 3 = some 0 ∧
        ∀ x, c.EnclosedBy 6 x → c.EnclosedBy 3 x → c.EnclosedBy 0 x) ∧
      c.lca 9 10 = none ∧ ∃ t ∈ c.topLevel, ∃ u ∈ c.topLevel,
        t ≠ u ∧ c.EnclosedBy 9 t ∧ c.EnclosedBy 10 u := by
  intro c
  have hnode : ∀ s ∈ [3, 6, 9, 10], s ∈ c.states := by decide +kernel
  have hmeet : c.lca 6 3 = some 0 := by decide +kernel
  have hapart : c.lca 9 10 = none := by decide +kernel
  obtain ⟨hcomm, hinner, -⟩ :=
    lca_of_build Outline.build_player (hnode 6 (by simp)) (hnode 3 (by simp))
  obtain ⟨-, -, htrees⟩ :=
    lca_of_build Outline.build_player (hnode 9 (by simp)) (hnode 10 (by simp))
  refine ⟨⟨?_, hmeet, ((hinner 0).1 hmeet).2.2⟩, hapart, htrees.1 hapart⟩
  rw [← hcomm]
  exact hmeet

end Statechart.Chart
