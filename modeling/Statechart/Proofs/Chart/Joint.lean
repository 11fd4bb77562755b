import Mathlib.Data.List.Pairwise
import Statechart.Proofs.Chart.Build
import Statechart.Proofs.Chart.Legality

/-!
States that can be active together. Of joinable states the branches never part at a compound
state or at the top level, so each of these has one child at most that leads to them. Choosing
that child, and the first one where none of the states lies below, gives a legal set around all
of them. Whether several targets can be active together is therefore a matter of pairs, which is
all that is tested when a chart is built.
-/

namespace Statechart.Chart

/-- Some of `targets` is `s` or lies below it. -/
def leadsTo (c : Chart) (targets : List Nat) (s : Nat) : Bool :=
  targets.any (fun t => decide (s ∈ c.branch t))

/-- The one of `siblings` that leads to `targets`, else the first. -/
def pick (c : Chart) (targets siblings : List Nat) : Option Nat :=
  (siblings.find? (c.leadsTo targets)).or siblings.head?

/-- Among the states beside it `s` is the one to be active, or all of them are. -/
def isPicked (c : Chart) (targets : List Nat) (s : Nat) : Bool :=
  match c.parent s with
  | none => decide (c.pick targets c.topLevel = some s)
  | some p =>
    decide (c.kind p = .parallel) || decide (c.pick targets (c.children p) = some s)

/-- The states that are to be active on the whole way up. -/
def around (c : Chart) (targets : List Nat) : StateSet :=
  StateSet.ofList (c.states.filter
    (fun s => !c.isPseudo s && (c.branch s).all (c.isPicked targets)))

variable {c : Chart} {targets siblings : List Nat} {s t x : Nat}

theorem leadsTo_iff : c.leadsTo targets s = true ↔ ∃ t ∈ targets, c.Within t s := by
  simp [leadsTo, Within]

theorem mem_of_pick (h : c.pick targets siblings = some s) : s ∈ siblings := by
  rcases Option.or_eq_some_iff.1 h with h | ⟨-, h⟩
  · exact List.mem_of_find?_eq_some h
  · exact List.mem_of_head? h

theorem exists_pick (c : Chart) (targets : List Nat) (h : siblings ≠ []) :
    ∃ s, c.pick targets siblings = some s := by
  obtain ⟨x, rest, rfl⟩ := List.exists_cons_of_ne_nil h
  rw [← Option.isSome_iff_exists, pick, Option.isSome_or]
  simp

/-- If the targets below `siblings` all lie within one of these, it is picked. -/
theorem pick_eq (hx : x ∈ siblings) (ht : t ∈ targets) (htx : c.Within t x)
    (hone : ∀ y ∈ siblings, ∀ u ∈ targets, c.Within u y → y = x) :
    c.pick targets siblings = some x := by
  obtain ⟨y, hy⟩ : ∃ y, siblings.find? (c.leadsTo targets) = some y := by
    rw [← Option.isSome_iff_exists, List.find?_isSome]
    exact ⟨x, hx, leadsTo_iff.2 ⟨t, ht, htx⟩⟩
  obtain ⟨u, hu, huy⟩ := leadsTo_iff.1 (List.find?_some hy)
  rw [pick, hy, hone y (List.mem_of_find?_eq_some hy) u hu huy]
  rfl

theorem mem_around : s ∈ c.around targets ↔
    c.Ordinary s ∧ ∀ a, c.Within s a → c.isPicked targets a = true := by
  simp [around, states, Ordinary, Within, and_assoc]

theorem isPicked_of_top (hp : c.parent s = none) :
    c.isPicked targets s = true ↔ c.pick targets c.topLevel = some s := by
  simp [isPicked, hp]

theorem isPicked_of_parallel {p : Nat} (hp : c.parent s = some p) (hk : c.kind p = .parallel) :
    c.isPicked targets s = true := by
  simp [isPicked, hp, hk]

theorem isPicked_of_compound {p : Nat} (hp : c.parent s = some p) (hk : c.kind p = .compound) :
    c.isPicked targets s = true ↔ c.pick targets (c.children p) = some s := by
  simp [isPicked, hp, hk]

namespace WellFormed

variable (hw : c.WellFormed)

include hw

theorem topLevel_ne_nil : c.topLevel ≠ [] := by
  obtain ⟨x, hx⟩ := List.exists_mem_of_ne_nil _ hw.initial_ne_nil
  obtain ⟨t, ht, -⟩ := hw.exists_mem_topLevel (hw.initial_lt hx)
  exact List.ne_nil_of_mem ht

theorem ordinary_of_top (hs : s < c.nodes.size) (hp : c.parent s = none) : c.Ordinary s := by
  refine ⟨hs, ?_⟩
  rw [Bool.eq_false_iff]
  intro hpseudo
  obtain ⟨p, hparent⟩ := hw.pseudo_parent hpseudo
  rw [hp] at hparent
  cases hparent

/-- What lies on the branch of one of several joinable states is picked. -/
theorem isPicked_of_within (hjoin : ∀ a ∈ targets, ∀ b ∈ targets, c.Joinable a b)
    (ht : t ∈ targets) (hord : c.Ordinary t) (hts : c.Within t s) :
    c.isPicked targets s = true := by
  have hs := hw.ordinary_of_within hord hts
  cases hp : c.parent s with
  | none =>
    rw [isPicked_of_top hp]
    refine pick_eq (hw.mem_topLevel.2 ⟨hs.1, hp⟩) ht hts ?_
    intro y hy u hu huy
    exact hw.top_eq_of_joinable (hjoin u hu t ht) (hw.mem_topLevel.1 hy).2 hp huy hts
  | some p =>
    rcases hw.parent_composite hp with hk | hk
    · rw [isPicked_of_compound hp hk]
      refine pick_eq (hw.mem_children.2 ⟨hp, hs.2⟩) ht hts ?_
      intro y hy u hu huy
      exact hw.child_eq_of_joinable (hjoin u hu t ht) hk (hw.mem_children.1 hy).1 hp huy hts
    · exact isPicked_of_parallel hp hk

theorem mem_around_of_parent {p : Nat} (hp : c.parent s = some p) (hs : c.isPseudo s = false)
    (hpa : p ∈ c.around targets) (hpicked : c.isPicked targets s = true) :
    s ∈ c.around targets := by
  refine mem_around.2 ⟨⟨lt_size_of_parent hp, hs⟩, ?_⟩
  intro a hsa
  rcases within_iff.1 hsa with rfl | hbelow
  · exact hpicked
  · exact (mem_around.1 hpa).2 a ((hw.below_iff_within_parent hp).1 hbelow)

/-- Whatever the targets are, the picked states form a legal set. -/
theorem legal_around (targets : List Nat) : c.Legal (c.around targets) where
  ordinary h := (mem_around.1 h).1
  upward := by
    intro s p hs hp
    refine mem_around.2 ⟨(hw.parent_composite hp).ordinary, ?_⟩
    intro a hpa
    exact (mem_around.1 hs).2 a (hw.within_trans (hw.below_parent hp).within hpa)
  compound := by
    intro s hs hk
    obtain ⟨x, hx⟩ := exists_pick c targets (hw.children_ne_nil (.inl hk))
    have hxs := mem_of_pick hx
    obtain ⟨hp, hpseudo⟩ := hw.mem_children.1 hxs
    have hpicked := (isPicked_of_compound hp hk).2 hx
    refine ⟨x, ⟨hxs, hw.mem_around_of_parent hp hpseudo hs hpicked⟩, ?_⟩
    rintro y ⟨hys, hy⟩
    have hpick := (isPicked_of_compound (hw.mem_children.1 hys).1 hk).1
      ((mem_around.1 hy).2 y (.refl y))
    exact Option.some.inj (hpick.symm.trans hx)
  parallel := by
    intro s hs hk x hx
    obtain ⟨hp, hpseudo⟩ := hw.mem_children.1 hx
    exact hw.mem_around_of_parent hp hpseudo hs (isPicked_of_parallel hp hk)
  top := by
    intro s t hs ht hps hpt
    have hpick := (isPicked_of_top hps).1 ((mem_around.1 hs).2 s (.refl s))
    exact Option.some.inj
      (hpick.symm.trans ((isPicked_of_top hpt).1 ((mem_around.1 ht).2 t (.refl t))))

theorem exists_top_around (targets : List Nat) : ∃ s ∈ c.around targets, c.parent s = none := by
  obtain ⟨s, hs⟩ := exists_pick c targets hw.topLevel_ne_nil
  obtain ⟨hsize, hp⟩ := hw.mem_topLevel.1 (mem_of_pick hs)
  refine ⟨s, mem_around.2 ⟨hw.ordinary_of_top hsize hp, ?_⟩, hp⟩
  intro a hsa
  rw [← eq_of_within_top hp hsa]
  exact (isPicked_of_top hp).2 hs

/-- Ordinary states are active together in some legal set exactly if any two are joinable. -/
theorem exists_legal_iff (hord : ∀ t ∈ targets, c.Ordinary t) :
    (∃ active, c.Legal active ∧ (∃ s ∈ active, c.parent s = none) ∧ ∀ t ∈ targets, t ∈ active) ↔
      ∀ a ∈ targets, ∀ b ∈ targets, c.Joinable a b := by
  constructor
  · rintro ⟨active, hl, -, hall⟩ a ha b hb
    exact hw.joinable_of_legal hl (hall a ha) (hall b hb)
  · intro hjoin
    refine ⟨c.around targets, hw.legal_around targets, hw.exists_top_around targets, ?_⟩
    intro t ht
    exact mem_around.2 ⟨hord t ht, fun a hta => hw.isPicked_of_within hjoin ht (hord t ht) hta⟩

/-- Different states none of which lies below another are compatible if any two are joinable. -/
theorem areCompatible_iff_joinable (hnodup : targets.Nodup)
    (hapart : ∀ a ∈ targets, ∀ b ∈ targets, ¬ c.Below a b) :
    c.areCompatible targets = true ↔ ∀ a ∈ targets, ∀ b ∈ targets, c.Joinable a b := by
  rw [hw.areCompatible_iff]
  constructor
  · intro hpairs
    have hsymm : Std.Symm c.Joinable := ⟨fun _ _ => Joinable.symm⟩
    have hjoin : targets.Pairwise c.Joinable := hpairs.imp Orthogonal.joinable
    intro a ha b hb
    exact hjoin.forall_of_forall (fun a _ => Joinable.refl a) ha hb
  · intro hjoin
    refine hnodup.imp_of_mem ?_
    intro a b ha hb hab
    rcases hjoin a ha b hb with h | h | h
    · exact ((within_iff.1 h).elim hab (hapart a ha b hb)).elim
    · exact ((within_iff.1 h).elim (Ne.symm hab) (hapart b hb a ha)).elim
    · exact h

end WellFormed

/-- Different ordinary states none of which lies below another pass the test of pairs exactly if
some legal set with one state of the top level has all of them active. -/
theorem areCompatible_of_build {o : Outline} (hbuild : o.build = .ok c)
    (hord : ∀ t ∈ targets, c.Ordinary t) (hnodup : targets.Nodup)
    (hapart : ∀ a ∈ targets, ∀ b ∈ targets, ¬ c.Below a b) :
    c.areCompatible targets = true ↔
      ∃ active : StateSet, c.Legal active ∧ (∃! s, s ∈ active ∧ c.parent s = none) ∧
        ∀ t ∈ targets, t ∈ active := by
  have hw := (Outline.wellFormed_of_build hbuild).1
  rw [hw.areCompatible_iff_joinable hnodup hapart, ← hw.exists_legal_iff hord]
  constructor
  · rintro ⟨active, hl, ⟨s, hs, hp⟩, hall⟩
    refine ⟨active, hl, ⟨s, ⟨hs, hp⟩, ?_⟩, hall⟩
    rintro u ⟨hu, hpu⟩
    exact hl.top hu hs hpu hp
  · rintro ⟨active, hl, ⟨s, ⟨hs, hp⟩, -⟩, hall⟩
    exact ⟨active, hl, ⟨s, hs, hp⟩, hall⟩

/-- In the player some legal set has `playing` and `muted` active, and none has both `paused` and
`playing`. -/
theorem areCompatible_of_build_player :
    (∃ active : StateSet, Outline.player.chart.Legal active ∧
        (∃! s, s ∈ active ∧ Outline.player.chart.parent s = none) ∧
        ∀ t ∈ [3, 7], t ∈ active) ∧
      ¬ ∃ active : StateSet, Outline.player.chart.Legal active ∧
        (∃! s, s ∈ active ∧ Outline.player.chart.parent s = none) ∧
        ∀ t ∈ [2, 3], t ∈ active := by
  have hordinary : ∀ t ∈ [2, 3, 7], Outline.player.chart.Ordinary t := by
    intro t ht
    simp only [List.mem_cons, List.not_mem_nil, or_false] at ht
    rcases ht with rfl | rfl | rfl <;> exact ⟨by decide +kernel, by decide +kernel⟩
  have hapart : ∀ a ∈ [2, 3, 7], ∀ b ∈ [2, 3, 7], ¬ Outline.player.chart.Below a b := by
    simp only [← isDescendant_iff]
    decide +kernel
  have htogether : Outline.player.chart.areCompatible [3, 7] = true := by decide +kernel
  have hclash : Outline.player.chart.areCompatible [2, 3] = false := by decide +kernel
  constructor
  · exact (areCompatible_of_build Outline.build_player (fun t ht => hordinary t (by grind))
      (by decide) (fun a ha b hb => hapart a (by grind) b (by grind))).1 htogether
  · rw [← areCompatible_of_build Outline.build_player (fun t ht => hordinary t (by grind))
      (by decide) (fun a ha b hb => hapart a (by grind) b (by grind)), hclash]
    simp

end Statechart.Chart
