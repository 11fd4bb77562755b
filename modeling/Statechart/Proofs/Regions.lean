import Statechart.Proofs.Chart.Legality
import Statechart.Proofs.Planning

/-!
Complete regions. A final state is complete when it is active, a compound state when a final child
of it is, and a parallel state when all its regions are complete. The interpreter does not compute
this: it marks what is complete as final states are left and entered, and tells of it by an event.
Around a parallel state whose regions are not parallel themselves the marks are right after every
single state that is left or entered, and the event is raised exactly when the state becomes
complete.
-/

namespace Statechart

namespace Chart

/-- The state is complete when the states `active` are active. -/
inductive Complete (c : Chart) (active : StateSet) : Nat → Prop where
  | final {s : Nat} (hk : c.kind s = .final) (hs : s ∈ active) : Complete c active s
  | compound {s f : Nat} (hk : c.kind s = .compound) (hfinal : c.kind f = .final)
      (hp : c.parent f = some s) (hf : f ∈ active) : Complete c active s
  | parallel {s : Nat} (hk : c.kind s = .parallel)
      (hregions : ∀ x ∈ c.children s, Complete c active x) : Complete c active s

/-- The states of `completed` are marked; the marks of `p` and of its children are right. -/
def Tallied (c : Chart) (p : Nat) (active completed : StateSet) : Prop :=
  ∀ x, x = p ∨ x ∈ c.children p → (x ∈ completed ↔ c.Complete active x)

/-- The marks of the regions of `p` are right; that of `p` itself still tells whether `p` was
complete before, which makes it complete now. -/
structure Lagging (c : Chart) (p : Nat) (active : StateSet) (was : Prop) (completed : StateSet) :
    Prop where
  regions : ∀ x ∈ c.children p, (x ∈ completed ↔ c.Complete active x)
  own : p ∈ completed ↔ was
  mono : was → c.Complete active p

/-- The mark of `x` is taken away when the state `s` is left. -/
def Withdraws (c : Chart) (s x : Nat) : Prop :=
  x = s ∨ c.kind s = .final ∧ (c.parent s = some x ∨
    ∃ q, c.parent s = some q ∧ c.parent q = some x ∧ c.kind x = .parallel)

/-- The states `exits` are active, and with a state they hold all that is active inside it; a
region is left only with its parallel state. -/
structure Cuts (c : Chart) (active : StateSet) (exits : List Nat) : Prop where
  subset : ∀ x ∈ exits, x ∈ active
  inside : ∀ {x y}, x ∈ exits → y ∈ active → c.Within y x → y ∈ exits
  region : ∀ {x q}, x ∈ exits → c.parent x = some q → c.kind q = .parallel → q ∈ exits

/-- The states `entries` can be entered one after the other: when its turn comes, a state is not
active yet and the state around it is. -/
inductive Opens (c : Chart) : StateSet → List Nat → Prop where
  | nil (active : StateSet) : Opens c active []
  | cons {active : StateSet} {s : Nat} {rest : List Nat} (hs : s ∉ active)
      (hparent : ∀ q, c.parent s = some q → q ∈ active) (hrest : Opens c (active.insert s) rest) :
      Opens c active (s :: rest)

variable {c : Chart} {active kept completed completed' : StateSet} {p : Nat}

/-- More final states complete more. -/
theorem Complete.mono (h : ∀ f, c.kind f = .final → f ∈ active → f ∈ kept) {s : Nat}
    (hs : c.Complete active s) : c.Complete kept s := by
  induction hs with
  | final hk hs => exact .final hk (h _ hk hs)
  | compound hk hfinal hp hf => exact .compound hk hfinal hp (h _ hfinal hf)
  | parallel hk _ ih => exact .parallel hk ih

theorem complete_congr (h : ∀ f, c.kind f = .final → (f ∈ active ↔ f ∈ kept)) (s : Nat) :
    c.Complete active s ↔ c.Complete kept s :=
  ⟨.mono fun f hk => (h f hk).1, .mono fun f hk => (h f hk).2⟩

theorem complete_parallel (hp : c.kind p = .parallel) :
    c.Complete active p ↔ ∀ x ∈ c.children p, c.Complete active x := by
  refine ⟨?_, .parallel hp⟩
  intro h
  cases h with
  | final hk => simp [hp] at hk
  | compound hk => simp [hp] at hk
  | parallel _ hregions => exact hregions

/-- The mark of `p` does not lag where `p` becomes complete no more than it was. -/
theorem Lagging.tallied {was : Prop} (h : c.Lagging p active was completed)
    (hright : c.Complete active p → was) : c.Tallied p active completed := by
  rintro x (rfl | hx)
  · exact h.own.trans ⟨h.mono, hright⟩
  · exact h.regions x hx

theorem Tallied.congr (h : c.Tallied p active completed)
    (hfinal : ∀ f, c.kind f = .final → (f ∈ active ↔ f ∈ kept)) : c.Tallied p kept completed :=
  fun x hx => (h x hx).trans (complete_congr hfinal x)

section Marks

variable (hw : c.WellFormed) (hp : c.kind p = .parallel)
  (hregions : ∀ x ∈ c.children p, c.kind x ≠ .parallel)

include hw

/-- What stays stays with all that is around it. -/
theorem Cuts.rooted {exits : List Nat} (h : c.Cuts active exits) (hl : c.Legal active) :
    c.Rooted (active.diff (.ofList exits)) := by
  intro x q hx hq
  rw [StateSet.mem_diff, StateSet.mem_ofList] at hx ⊢
  exact ⟨hl.upward hx.1 hq, fun hexit => hx.2 (h.inside hexit hx.1 (hw.below_parent hq).within)⟩

/-- Inside what is complete a final state is active. -/
theorem Complete.exists_mem {s : Nat} (h : c.Complete active s) :
    ∃ f ∈ active, c.Within f s := by
  induction h with
  | final _ hs => exact ⟨_, hs, .refl _⟩
  | compound _ _ hp hf => exact ⟨_, hf, (hw.below_parent hp).within⟩
  | @parallel s hk _ ih =>
    obtain ⟨x, hx⟩ := List.exists_mem_of_ne_nil _ (hw.children_ne_nil (.inr hk))
    obtain ⟨f, hf, hfx⟩ := ih x hx
    exact ⟨f, hf, (hw.below_of_within_child (hw.mem_children.1 hx).1 hfx).within⟩

theorem not_final_of_parent {f q : Nat} (h : c.parent f = some q) : c.kind q ≠ .final := by
  intro hk
  rcases hw.parent_composite h with hq | hq
  · simp [hq] at hk
  · simp [hq] at hk

/-- A state of which a final state is a child is compound or parallel. -/
theorem mem_children_of_final {f q : Nat} (hk : c.kind f = .final) (h : c.parent f = some q) :
    f ∈ c.children q := by
  refine hw.mem_children.2 ⟨h, ?_⟩
  simp [isPseudo, hk, NodeKind.isPseudo]

theorem mem_children_of_parent {f q g : Nat} (h : c.parent f = some q)
    (hq : c.parent q = some g) : q ∈ c.children g :=
  hw.mem_children.2 ⟨hq, (hw.parent_composite h).ordinary.2⟩

/-- A state that is not active is not marked where the states around active ones are active. -/
theorem Tallied.not_marked (h : c.Tallied p active completed) (hrooted : c.Rooted active) {s : Nat}
    (hs : s ∉ active) (hsp : s = p ∨ s ∈ c.children p) : s ∉ completed := by
  intro hmarked
  obtain ⟨f, hf, hfs⟩ := ((h s hsp).1 hmarked).exists_mem hw
  exact hs (hw.mem_of_rooted hrooted hf hfs)

include hregions

/-- Entering `s` completes of the regions the one that `s` is, or of which it is a final child. -/
theorem complete_insert_region {s x : Nat} (hx : x ∈ c.children p) :
    c.Complete (active.insert s) x ↔
      c.Complete active x ∨ c.kind s = .final ∧ (s = x ∨ c.parent s = some x) := by
  constructor
  · intro h
    cases h with
    | final hk hmem =>
      rcases StateSet.mem_insert.1 hmem with rfl | hmem
      · exact .inr ⟨hk, .inl rfl⟩
      · exact .inl (.final hk hmem)
    | @compound _ f hk hfinal hparent hmem =>
      rcases StateSet.mem_insert.1 hmem with rfl | hmem
      · exact .inr ⟨hfinal, .inr hparent⟩
      · exact .inl (.compound hk hfinal hparent hmem)
    | parallel hk => exact absurd hk (hregions x hx)
  · rintro (h | ⟨hk, rfl | hparent⟩)
    · exact h.mono fun f _ hf => StateSet.mem_insert.2 (.inr hf)
    · exact .final hk (StateSet.mem_insert.2 (.inl rfl))
    · have hcompound := (hw.parent_composite hparent).resolve_right (hregions x hx)
      exact .compound hcompound hk hparent (StateSet.mem_insert.2 (.inl rfl))

/-- A state that is not final, or that nothing is around, completes nothing. -/
theorem complete_insert_aside {s : Nat} (hp : c.kind p = .parallel)
    (haside : c.kind s = .final → c.parent s = none) {x : Nat} (hx : x = p ∨ x ∈ c.children p) :
    c.Complete (active.insert s) x ↔ c.Complete active x := by
  have hregion : ∀ x ∈ c.children p, (c.Complete (active.insert s) x ↔ c.Complete active x) := by
    intro x hx
    rw [complete_insert_region hw hregions hx, or_iff_left]
    rintro ⟨hk, hsx⟩
    have htop := haside hk
    rcases hsx with rfl | hsx
    · simp [(hw.mem_children.1 hx).1] at htop
    · simp [hsx] at htop
  rcases hx with rfl | hx
  · rw [complete_parallel hp, complete_parallel hp]
    exact forall₂_congr hregion
  · exact hregion x hx

/-- The region that the final state `s` completes, in the place in which it is marked. -/
theorem region_of_final {s q x y : Nat} (hp : c.kind p = .parallel) (hq : c.parent s = some q)
    (hy : c.kind q = .parallel ∧ y = s ∨ c.kind q = .compound ∧ y = q) (hx : x ∈ c.children p) :
    s = x ∨ c.parent s = some x ↔ x = y := by
  rcases hy with ⟨hk, rfl⟩ | ⟨hk, rfl⟩
  · refine ⟨?_, fun h => .inl h.symm⟩
    rintro (rfl | hxq)
    · rfl
    · obtain rfl := Option.some.inj (hq.symm.trans hxq)
      exact absurd hk (hregions q hx)
  · constructor
    · rintro (rfl | hxq)
      · obtain rfl := Option.some.inj (hq.symm.trans (hw.mem_children.1 hx).1)
        simp [hk] at hp
      · exact Option.some.inj (hxq.symm.trans hq)
    · rintro rfl
      exact .inr hq

/-- Once the region that the final state `s` completes is marked, only the mark of `p` may lag. -/
theorem Tallied.lagging {s q y : Nat} (hp : c.kind p = .parallel)
    (h : c.Tallied p active completed) (hk : c.kind s = .final) (hq : c.parent s = some q)
    (hy : c.kind q = .parallel ∧ y = s ∨ c.kind q = .compound ∧ y = q) :
    c.Lagging p (active.insert s) (c.Complete active p) (completed.insert y) where
  regions x hx := by
    rw [complete_insert_region hw hregions hx, StateSet.mem_insert, h x (.inr hx), or_comm,
      region_of_final hw hregions hp hq hy hx]
    simp only [hk, true_and]
  own := by
    have hyp : p ≠ y := by
      rintro rfl
      rcases hy with ⟨-, rfl⟩ | ⟨hqk, rfl⟩
      · simp [hk] at hp
      · simp [hqk] at hp
    rw [StateSet.mem_insert, or_iff_right hyp]
    exact h p (.inl rfl)
  mono := .mono fun _ _ hf => StateSet.mem_insert.2 (.inr hf)

/-- Where no region is marked, `p` does not become complete. -/
theorem Tallied.not_region {s q y : Nat} (hp : c.kind p = .parallel)
    (h : c.Tallied p active completed) (hk : c.kind s = .final) (hq : c.parent s = some q)
    (hy : c.kind q = .parallel ∧ y = s ∨ c.kind q = .compound ∧ y = q)
    (hyp : c.parent y ≠ some p) (hcomplete : c.Complete (active.insert s) p) :
    c.Complete active p := by
  have hlagging := Tallied.lagging hw hregions hp h hk hq hy
  refine .parallel hp fun x hx => (h x (.inr hx)).1 ?_
  have hmarked := (hlagging.regions x hx).2 ((complete_parallel hp).1 hcomplete x hx)
  rcases StateSet.mem_insert.1 hmarked with rfl | hmarked
  · exact absurd (hw.mem_children.1 hx).1 hyp
  · exact hmarked

section Cut

variable {exits : List Nat} (hcuts : c.Cuts active exits)
  (hkept : ∀ x, x ∈ kept ↔ x ∈ active ∧ x ∉ exits)

include hcuts hkept

omit hregions

/-- What is complete with the states that stay is not left: a final state inside it stays. -/
theorem Cuts.not_left {x : Nat} (hx : c.Complete kept x) : x ∉ exits := by
  intro hexit
  obtain ⟨f, hf, hfx⟩ := hx.exists_mem hw
  obtain ⟨hfa, hfe⟩ := (hkept f).1 hf
  exact hfe (hcuts.inside hexit hfa hfx)

/-- A compound state does not keep one final child while another is left. -/
theorem Cuts.not_compound (hl : c.Legal active) {s f q : Nat} (hs : s ∈ exits) (hf : f ∈ kept)
    (hsk : c.kind s = .final) (hfk : c.kind f = .final) (hsq : c.parent s = some q)
    (hfq : c.parent f = some q) : c.kind q ≠ .compound := by
  intro hk
  obtain ⟨hfa, hfe⟩ := (hkept f).1 hf
  have hsa := hcuts.subset s hs
  apply hfe
  rw [(hl.compound (hl.upward hfa hfq) hk).unique ⟨mem_children_of_final hw hfk hfq, hfa⟩
    ⟨mem_children_of_final hw hsk hsq, hsa⟩]
  exact hs

variable (hl : c.Legal active)
  (hcompleted : ∀ x, x ∈ completed' ↔ x ∈ completed ∧ ∀ s ∈ exits, ¬ c.Withdraws s x)

include hregions hl hcompleted

/-- States that are left leave the marks of the regions right. -/
theorem Tallied.cut_region (h : c.Tallied p active completed) {x : Nat} (hx : x ∈ c.children p) :
    x ∈ completed' ↔ c.Complete kept x := by
  rw [hcompleted, h x (.inr hx)]
  constructor
  · rintro ⟨hcomplete, hnone⟩
    have hstays : ∀ f ∈ active, f = x ∨ c.kind f = .final ∧ c.parent f = some x → f ∈ kept := by
      intro f hf hfx
      refine (hkept f).2 ⟨hf, fun hexit => hnone f hexit ?_⟩
      exact hfx.imp Eq.symm (fun hfx => ⟨hfx.1, .inl hfx.2⟩)
    cases hcomplete with
    | final hk hs => exact .final hk (hstays x hs (.inl rfl))
    | compound hk hfinal hparent hf =>
      exact .compound hk hfinal hparent (hstays _ hf (.inr ⟨hfinal, hparent⟩))
    | parallel hk => exact absurd hk (hregions x hx)
  · intro hcomplete
    refine ⟨hcomplete.mono (fun f _ hf => ((hkept f).1 hf).1), ?_⟩
    rintro s hs (rfl | ⟨hsk, hsx | ⟨-, -, -, hk⟩⟩)
    · exact hcuts.not_left hw hkept hcomplete hs
    · cases hcomplete with
      | final hk => exact not_final_of_parent hw hsx hk
      | compound hk hfinal hparent hf =>
        exact hcuts.not_compound hw hkept hl hs hf hsk hfinal hsx hparent hk
      | parallel hk => exact hregions x hx hk
    · exact hregions x hx hk

include hp

/-- States that are left leave the marks right. -/
theorem Tallied.cut (h : c.Tallied p active completed) : c.Tallied p kept completed' := by
  have hregion : ∀ x ∈ c.children p, (x ∈ completed' ↔ c.Complete kept x) :=
    fun x hx => Tallied.cut_region hw hregions hcuts hkept hl hcompleted h hx
  intro x hx
  rcases hx with rfl | hx
  · rw [hcompleted, h x (.inl rfl)]
    constructor
    · rintro ⟨hcomplete, hnone⟩
      refine .parallel hp fun r hr => (hregion r hr).1 ((hcompleted r).2 ⟨?_, ?_⟩)
      · exact (h r (.inr hr)).2 ((complete_parallel hp).1 hcomplete r hr)
      · have hrx := (hw.mem_children.1 hr).1
        rintro s hs (rfl | ⟨hsk, hsr | ⟨-, -, -, hk⟩⟩)
        · exact hnone x (hcuts.region hs hrx hp) (.inl rfl)
        · exact hnone s hs (.inr ⟨hsk, .inr ⟨r, hsr, hrx, hp⟩⟩)
        · exact hregions r hr hk
    · intro hcomplete
      have hall := (complete_parallel hp).1 hcomplete
      refine ⟨hcomplete.mono (fun f _ hf => ((hkept f).1 hf).1), ?_⟩
      rintro s hs (rfl | ⟨hsk, hsx | ⟨q, hsq, hqx, -⟩⟩)
      · exact hcuts.not_left hw hkept hcomplete hs
      · exact hcuts.not_left hw hkept (hall s (mem_children_of_final hw hsk hsx)) hs
      · have hq := mem_children_of_parent hw hsq hqx
        cases hall q hq with
        | final hk => exact not_final_of_parent hw hsq hk
        | compound hk hfinal hparent hf =>
          exact hcuts.not_compound hw hkept hl hs hf hsk hfinal hsq hparent hk
        | parallel hk => exact hregions q hq hk
  · exact hregion x hx

end Cut

end Marks

theorem depth_le_of_entersBefore {a b : Nat} (h : c.entersBefore a b = true) :
    (c.node a).depth ≤ (c.node b).depth := by
  simp only [entersBefore, Bool.or_eq_true, Bool.and_eq_true, decide_eq_true_eq] at h
  omega

theorem depth_le_of_not_entersBefore {a b : Nat} (h : ¬ c.entersBefore a b = true) :
    (c.node b).depth ≤ (c.node a).depth := by
  simp only [entersBefore, Bool.or_eq_true, Bool.and_eq_true, decide_eq_true_eq] at h
  omega

/-- Outer states come first. -/
theorem entryOrder_depth (c : Chart) (states : List Nat) :
    (c.entryOrder states).Pairwise fun a b => (c.node a).depth ≤ (c.node b).depth := by
  refine pairwise_sortBy ?_ ?_ ?_ states
  · exact Nat.le_trans
  · exact depth_le_of_entersBefore
  · exact depth_le_of_not_entersBefore

/-- Inner states come first. -/
theorem exitOrder_depth (c : Chart) (states : List Nat) :
    (c.exitOrder states).Pairwise fun a b => (c.node b).depth ≤ (c.node a).depth := by
  refine pairwise_sortBy ?_ ?_ ?_ states
  · exact fun hxy hyz => Nat.le_trans hyz hxy
  · exact depth_le_of_entersBefore
  · exact depth_le_of_not_entersBefore

/-- States that are new and around which there is nothing else can be entered from the outside
to the inside. -/
theorem opens_of_pairwise (hw : c.WellFormed) {entries : List Nat}
    (hsorted : entries.Pairwise fun a b => (c.node a).depth ≤ (c.node b).depth)
    (hnodup : entries.Nodup) (hnew : ∀ s ∈ entries, s ∉ active)
    (hparent : ∀ s ∈ entries, ∀ q, c.parent s = some q → q ∈ active ∨ q ∈ entries) :
    c.Opens active entries := by
  induction entries generalizing active with
  | nil => exact .nil active
  | cons s rest ih =>
    obtain ⟨houter, hsorted⟩ := List.pairwise_cons.1 hsorted
    obtain ⟨hs, hnodup⟩ := List.nodup_cons.1 hnodup
    refine .cons (hnew s (by simp)) ?_ (ih hsorted hnodup ?_ ?_)
    · intro q hq
      have hdepth := hw.depth_child hq
      rcases hparent s (by simp) q hq with hq | hq
      · exact hq
      · rcases List.mem_cons.1 hq with rfl | hq
        · omega
        · have := houter q hq
          omega
    · intro x hx
      rw [StateSet.mem_insert, not_or]
      refine ⟨?_, hnew x (List.mem_cons_of_mem s hx)⟩
      rintro rfl
      exact hs hx
    · intro x hx q hq
      rw [StateSet.mem_insert]
      rcases hparent x (List.mem_cons_of_mem s hx) q hq with hq | hq
      · exact .inl (.inr hq)
      · rcases List.mem_cons.1 hq with rfl | hq
        · exact .inl (.inl rfl)
        · exact .inr hq

/-- What is entered after what is around it leaves nothing active without the states above. -/
theorem Rooted.insert {s : Nat} (h : c.Rooted active)
    (hparent : ∀ q, c.parent s = some q → q ∈ active) : c.Rooted (active.insert s) := by
  intro x q hx hq
  rcases StateSet.mem_insert.1 hx with rfl | hx
  · exact StateSet.mem_insert.2 (.inr (hparent q hq))
  · exact StateSet.mem_insert.2 (.inr (h hx hq))

end Chart

end Statechart
