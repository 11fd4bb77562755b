import Statechart.Chart.Path
import Statechart.Proofs.Chart.Build
import Statechart.Proofs.Chart.Legality

/-!
What a transition leaves. A transition with targets has a domain: its source, if it stays inside
it, or else the innermost compound state above its source and all its targets, or the chart as a
whole. It leaves what is active below its domain. The three walks that collect these states miss
nothing: what is active below the domain lies above the source, or below it, or in a region
beside one that the transition leaves.
-/

namespace Statechart.Chart

/-- `t` stays inside its source. -/
def StaysInside (c : Chart) (t : Transition) : Prop :=
  t.kind = .internal ∧ c.kind t.source = .compound ∧ ∀ x ∈ t.targets, c.Below x t.source

/-- `d` is a compound state above the source and all targets of `t`. -/
def Spans (c : Chart) (t : Transition) (d : Nat) : Prop :=
  c.kind d = .compound ∧ c.Below t.source d ∧ ∀ x ∈ t.targets, c.Below x d

/-- The domain of a transition with targets; `none` stands for the chart as a whole. -/
inductive IsDomain (c : Chart) (t : Transition) : Option Nat → Prop where
  | source (hstays : c.StaysInside t) : IsDomain c t (some t.source)
  | spanning {d : Nat} (hstays : ¬ c.StaysInside t) (hd : c.Spans t d)
      (hinner : ∀ e, c.Spans t e → c.Within d e) : IsDomain c t (some d)
  | whole (hstays : ¬ c.StaysInside t) (hnone : ∀ e, ¬ c.Spans t e) : IsDomain c t none

/-- `s` lies below the domain `d`. -/
def InDomain (c : Chart) (s : Nat) (d : Option Nat) : Prop :=
  ∀ a, d = some a → c.Below s a

/-- The domain `e` lies inside the domain `d`. -/
def Contains (c : Chart) (d e : Option Nat) : Prop :=
  ∀ a, d = some a → ∃ b, e = some b ∧ c.Below b a

/-- Nothing below `top` is missing above a member of `known`. -/
def ClosedUpTo (c : Chart) (top : Nat) (known : StateSet) : Prop :=
  ∀ y ∈ known, ∀ a, c.Within y a → c.Below a top → a ∈ known

/-- `known` holds the way from the source of `t` up to the domain `d`, and around a member all
that lies below `d`. -/
structure HoldsWay (c : Chart) (t : Transition) (d : Option Nat) (known : StateSet) : Prop where
  way : ∀ y, c.Within t.source y → c.InDomain y d → y ∈ known
  around : ∀ y ∈ known, ∀ a, c.Within y a → c.InDomain a d → a ∈ known

/-- The states beside `s`, itself included. -/
def siblings (c : Chart) (s : Nat) : List Nat :=
  match c.parent s with
  | none => []
  | some p => c.children p

variable {c : Chart}

theorem mark_eq_gather (stop : Nat) (walk : List Nat) (known : StateSet) :
    mark stop walk known = gather (StateSet.ofList [stop]) walk known := by
  induction walk generalizing known with
  | nil => rfl
  | cons s above ih =>
    simp only [mark, gather, StateSet.mem_ofList, List.mem_singleton, ih]

/-- A domain is compound, and the source lies within it. -/
theorem domain_spec {t : Transition} {a : Nat} (hd : c.IsDomain t (some a)) :
    c.kind a = .compound ∧ c.Within t.source a ∧ ∀ x ∈ t.targets, c.Below x a := by
  cases hd with
  | source hstays => exact ⟨hstays.2.1, .refl _, hstays.2.2⟩
  | spanning _ hd => exact ⟨hd.1, hd.2.1.within, hd.2.2⟩

theorem IsDomain.source_within {t : Transition} {d : Option Nat} (hd : c.IsDomain t d) :
    ∀ a, d = some a → c.Within t.source a := by
  rintro a rfl
  exact (domain_spec hd).2.1

theorem inDomain_none (s : Nat) : c.InDomain s none := by
  intro a ha
  cases ha

theorem inDomain_some {s a : Nat} : c.InDomain s (some a) ↔ c.Below s a := by
  constructor
  · intro h
    exact h a rfl
  · rintro h b ⟨⟩
    exact h

namespace WellFormed

variable (hw : c.WellFormed)

include hw

/-- The innermost state that holds `s` and all of `targets`. -/
theorem foldlM_lca_eq_some_iff {targets : List Nat} {s m : Nat} :
    targets.foldlM c.lca s = some m ↔ c.Within s m ∧ (∀ x ∈ targets, c.Within x m) ∧
      ∀ y, c.Within s y → (∀ x ∈ targets, c.Within x y) → c.Within m y := by
  induction targets generalizing s with
  | nil =>
    simp only [List.foldlM_nil, Option.pure_def, Option.some.injEq, List.not_mem_nil,
      false_implies, implies_true, true_implies, true_and]
    constructor
    · rintro rfl
      exact ⟨.refl s, fun y hy => hy⟩
    · rintro ⟨hsm, hinner⟩
      exact hw.within_antisymm hsm (hinner s (.refl s))
  | cons x rest ih =>
    simp only [List.foldlM_cons, Option.bind_eq_bind, Option.bind_eq_some_iff, ih,
      List.mem_cons, forall_eq_or_imp]
    constructor
    · rintro ⟨n, hn, hnm, hrest, hinner⟩
      obtain ⟨hsn, hxn, hninner⟩ := hw.lca_eq_some_iff.1 hn
      refine ⟨hw.within_trans hsn hnm, ⟨hw.within_trans hxn hnm, hrest⟩, ?_⟩
      rintro y hsy ⟨hxy, hresty⟩
      exact hinner y (hninner y hsy hxy) hresty
    · rintro ⟨hsm, ⟨hxm, hrest⟩, hinner⟩
      cases hn : c.lca s x with
      | none => exact absurd hxm (lca_eq_none_iff.1 hn m hsm)
      | some n =>
        obtain ⟨hsn, hxn, hninner⟩ := hw.lca_eq_some_iff.1 hn
        refine ⟨n, rfl, hninner m hsm hxm, hrest, ?_⟩
        intro y hny hresty
        exact hinner y (hw.within_trans hsn hny) ⟨hw.within_trans hxn hny, hresty⟩

theorem foldlM_lca_eq_none {targets : List Nat} {s y : Nat}
    (h : targets.foldlM c.lca s = none) (hs : c.Within s y) :
    ¬ ∀ x ∈ targets, c.Within x y := by
  induction targets generalizing s with
  | nil => cases h
  | cons x rest ih =>
    intro hall
    rw [List.foldlM_cons, Option.bind_eq_bind] at h
    have hxy := hall x (by simp)
    cases hn : c.lca s x with
    | none => exact lca_eq_none_iff.1 hn y hs hxy
    | some n =>
      rw [hn, Option.bind_some] at h
      obtain ⟨-, -, hinner⟩ := hw.lca_eq_some_iff.1 hn
      exact ih h (hinner y hs hxy) (fun z hz => hall z (List.mem_cons_of_mem _ hz))

/-- Above the innermost state that holds the source and all targets, the states that span the
transition are those that are not parallel, nor the source or a target themselves. -/
theorem spans_iff {t : Transition} {m : Nat} (hm : t.targets.foldlM c.lca t.source = some m)
    (d : Nat) : c.Spans t d ↔ c.Within m d ∧
      decide (c.kind d ≠ .parallel ∧ d ≠ t.source ∧ d ∉ t.targets) = true := by
  obtain ⟨hsm, htm, hinner⟩ := hw.foldlM_lca_eq_some_iff.1 hm
  rw [decide_eq_true_eq]
  constructor
  · rintro ⟨hk, hsd, htd⟩
    refine ⟨hinner d hsd.within (fun x hx => (htd x hx).within), ?_, ?_, ?_⟩
    · rw [hk]
      simp
    · rintro rfl
      exact hw.not_below_self _ hsd
    · intro hd
      exact hw.not_below_self _ (htd d hd)
  · rintro ⟨hmd, hk, hds, hdt⟩
    have hsd : c.Below t.source d :=
      (within_iff.1 (hw.within_trans hsm hmd)).resolve_left (Ne.symm hds)
    refine ⟨(hw.composite_of_below hsd).resolve_right hk, hsd, ?_⟩
    intro x hx
    apply (within_iff.1 (hw.within_trans (htm x hx) hmd)).resolve_left
    rintro rfl
    exact hdt hx

omit hw in
theorem staysInside_iff {t : Transition} : c.StaysInside t ↔
    t.kind = .internal ∧ c.kind t.source = .compound ∧
      t.targets.all (fun x => c.isDescendant x t.source) = true := by
  simp only [StaysInside, List.all_eq_true, isDescendant_iff]

/-- The scope that is computed is the domain. -/
theorem isDomain_scope (t : Transition) : c.IsDomain t (c.scope t) := by
  unfold scope
  split
  · next hstays => exact .source (staysInside_iff.2 hstays)
  · next hstays =>
    rw [← staysInside_iff] at hstays
    cases hm : t.targets.foldlM c.lca t.source with
    | none =>
      refine .whole hstays ?_
      rintro e ⟨-, hse, hte⟩
      exact hw.foldlM_lca_eq_none hm hse.within (fun x hx => (hte x hx).within)
    | some m =>
      simp only [Option.bind_eq_bind, Option.bind_some]
      cases hd : (c.branch m).find?
          (fun s => decide (c.kind s ≠ .parallel ∧ s ≠ t.source ∧ s ∉ t.targets)) with
      | none =>
        refine .whole hstays ?_
        intro e he
        obtain ⟨hme, hcond⟩ := (hw.spans_iff hm e).1 he
        exact List.find?_eq_none.1 hd e hme hcond
      | some d =>
        obtain ⟨hmd, hcond, hfirst⟩ := (hw.find?_chain_eq_some_iff (hw.branch_pairwise m)).1 hd
        refine .spanning hstays ((hw.spans_iff hm d).2 ⟨hmd, hcond⟩) ?_
        intro e he
        obtain ⟨hme, hecond⟩ := (hw.spans_iff hm e).1 he
        exact hfirst e hme hecond

theorem isDomain_unique {t : Transition} {d e : Option Nat} (hd : c.IsDomain t d)
    (he : c.IsDomain t e) : d = e := by
  cases hd with
  | source hstays =>
    cases he with
    | source => rfl
    | spanning hleaves => exact absurd hstays hleaves
    | whole hleaves => exact absurd hstays hleaves
  | spanning hleaves hd hinner =>
    cases he with
    | source hstays => exact absurd hstays hleaves
    | spanning _ he hinner' => rw [hw.within_antisymm (hinner _ he) (hinner' _ hd)]
    | whole _ hnone => exact absurd hd (hnone _)
  | whole hleaves hnone =>
    cases he with
    | source hstays => exact absurd hstays hleaves
    | spanning _ he => exact absurd he (hnone _)
    | whole => rfl

theorem inDomain_of_within {s x : Nat} {d : Option Nat} (hsx : c.Within s x)
    (hx : c.InDomain x d) : c.InDomain s d :=
  fun a ha => hw.below_of_within_of_below hsx (hx a ha)

/-- The part of a branch below the domain. -/
theorem mem_branchBelow {d : Option Nat} {s x : Nat} (hd : ∀ a, d = some a → c.Within s a) :
    x ∈ c.branchBelow d s ↔ c.Within s x ∧ c.InDomain x d := by
  induction s using Nat.strong_induction_on with
  | _ s ih =>
    unfold branchBelow branch
    by_cases hs : some s = d
    · subst hs
      simp only [List.takeWhile_cons, ne_eq, not_true, decide_false, Bool.false_eq_true, if_false,
        List.not_mem_nil, false_iff, not_and, inDomain_some]
      intro hsx hxs
      exact hw.not_within_of_below hxs hsx
    · have hsd : c.InDomain s d := by
        rintro a rfl
        apply (within_iff.1 (hd a rfl)).resolve_left
        rintro rfl
        exact hs rfl
      rw [List.takeWhile_cons_of_pos (by simpa using hs), List.mem_cons]
      cases hp : c.parent s with
      | none =>
        rw [ancestors_of_top hp, List.takeWhile_nil]
        simp only [List.not_mem_nil, or_false]
        constructor
        · rintro rfl
          exact ⟨.refl _, hsd⟩
        · rintro ⟨hsx, -⟩
          exact (eq_of_within_top hp hsx).symm
      | some p =>
        rw [hw.ancestors_of_parent hp]
        have hpd : ∀ a, d = some a → c.Within p a :=
          fun a ha => (hw.below_iff_within_parent hp).1 (hsd a ha)
        have hup := ih p (hw.parent_lt hp) hpd
        unfold branchBelow branch at hup
        rw [hup]
        constructor
        · rintro (rfl | ⟨hpx, hx⟩)
          · exact ⟨.refl _, hsd⟩
          · exact ⟨((hw.below_iff_within_parent hp).2 hpx).within, hx⟩
        · rintro ⟨hsx, hx⟩
          rcases within_iff.1 hsx with rfl | hsx
          · exact .inl rfl
          · exact .inr ⟨(hw.below_iff_within_parent hp).1 hsx, hx⟩

/-- From below `stop` a walk that ends there reaches what lies above it below `stop`. -/
theorem reaches_stop_iff {stop s a : Nat} (hs : c.Below s stop) :
    c.Reaches (StateSet.ofList [stop]) s a ↔ c.Within s a ∧ c.Below a stop := by
  constructor
  · rintro ⟨hsa, hfree⟩
    refine ⟨hsa, ?_⟩
    rcases hw.within_or_below hs.within hsa with h | h
    · exact absurd (by simp) (hfree stop hs h)
    · exact h
  · rintro ⟨hsa, ha⟩
    refine ⟨hsa, ?_⟩
    intro z _ hza hz
    simp only [StateSet.mem_ofList, List.mem_singleton] at hz
    subst hz
    exact hw.not_within_of_below ha hza

/-- A walk up to `stop` adds what lies above `s` below `stop`, provided that nothing there is
missing above a state known before. -/
theorem mem_mark {stop s x : Nat} {known : StateSet} (hs : c.Within s stop)
    (hknown : c.ClosedUpTo stop known) :
    x ∈ mark stop (c.branch s) known ↔ x ∈ known ∨ c.Within s x ∧ c.Below x stop := by
  unfold branch
  simp only [mark, mark_eq_gather]
  split
  · next hstop =>
    refine ⟨.inl, ?_⟩
    rintro (h | ⟨hsx, hx⟩)
    · exact h
    · rcases hstop with rfl | hmem
      · exact absurd hsx (hw.not_within_of_below hx)
      · exact hknown s hmem x hsx hx
  · next hgo =>
    rw [not_or] at hgo
    have hbelow : c.Below s stop := (within_iff.1 hs).resolve_left hgo.1
    have hwalk : ∀ y ∈ known.insert s, c.Below s y →
        c.Reaches (StateSet.ofList [stop]) s y →
        ∀ a, c.Reaches (StateSet.ofList [stop]) y a → a ∈ known.insert s := by
      intro y hy hsy hreach a hya
      rcases StateSet.mem_insert.1 hy with rfl | hy
      · exact absurd hsy (hw.not_below_self y)
      · have hystop := ((hw.reaches_stop_iff hbelow).1 hreach).2
        obtain ⟨hya, ha⟩ := (hw.reaches_stop_iff hystop).1 hya
        exact StateSet.mem_insert.2 (.inr (hknown y hy a hya ha))
    rw [hw.mem_gather (StateSet.mem_insert.2 (.inl rfl)) hwalk, StateSet.mem_insert,
      hw.reaches_stop_iff hbelow]
    constructor
    · rintro ((rfl | h) | h)
      · exact .inr ⟨.refl _, hbelow⟩
      · exact .inl h
      · exact .inr h
    · rintro (h | h)
      · exact .inl (.inr h)
      · exact .inr h

theorem closedUpTo_of_mem_iff {top s : Nat} {known known' : StateSet} {added : Nat → Prop}
    (hknown : c.ClosedUpTo top known) (hmem : ∀ x, x ∈ known' ↔ x ∈ known ∨ added x)
    (hadded : ∀ x, added x → c.Within s x)
    (hup : ∀ x, c.Within s x → c.Below x top → added x) : c.ClosedUpTo top known' := by
  intro y hy a hya ha
  rw [hmem] at hy ⊢
  rcases hy with hy | hy
  · exact .inl (hknown y hy a hya ha)
  · exact .inr (hup a (hw.within_trans (hadded y hy) hya) ha)

/-- Below the source everything active is added. -/
theorem mem_markBelow {current : StateSet} {top : Nat} {known : StateSet}
    (hknown : c.ClosedUpTo top known) (x : Nat) : x ∈ c.markBelow current top known ↔
      x ∈ known ∨ x ∈ c.closure current.members ∧ c.Below x top := by
  have hstep : ∀ (known : StateSet) s, c.ClosedUpTo top known → ∀ x,
      (x ∈ (if c.isDescendant s top then mark top (c.branch s) known else known) ↔
        x ∈ known ∨ c.Within s x ∧ c.Below x top) := by
    intro known s hknown x
    split
    · next hs => exact hw.mem_mark (isDescendant_iff.1 hs).within hknown
    · next hs =>
      refine ⟨.inl, ?_⟩
      rintro (h | ⟨hsx, hx⟩)
      · exact h
      · exact absurd (isDescendant_iff.2 (hw.below_of_within_of_below hsx hx)) hs
  have hclosed : ∀ (known : StateSet) s, c.ClosedUpTo top known → c.ClosedUpTo top _ :=
    fun known s hknown => hw.closedUpTo_of_mem_iff hknown (hstep known s hknown)
      (fun x hx => hx.1) (fun x hsx hx => ⟨hsx, hx⟩)
  rw [markBelow, StateSet.mem_foldl (fun known s _ => hstep known s)
    (fun known s _ => hclosed known s) hknown, hw.mem_closure]
  simp only [StateSet.mem_def, ← and_assoc, exists_and_right]

/-- In a region everything active is added, the region included. -/
theorem mem_markFrom {current : StateSet} {top : Nat} {known : StateSet}
    (hknown : c.ClosedUpTo top known) (x : Nat) : x ∈ c.markFrom current top known ↔
      x ∈ known ∨ x ∈ c.closure current.members ∧ c.Within x top := by
  have hstep : ∀ (known : StateSet) s, c.ClosedUpTo top known → ∀ x,
      (x ∈ (if s = top ∨ c.isDescendant s top then mark top (c.branch s) (known.insert top)
        else known) ↔ x ∈ known ∨ c.Within s x ∧ c.Within x top) := by
    intro known s hknown x
    split
    · next hs =>
      rw [isDescendant_iff, ← within_iff] at hs
      have hinsert : c.ClosedUpTo top (known.insert top) := by
        intro y hy a hya ha
        rcases StateSet.mem_insert.1 hy with rfl | hy
        · exact absurd hya (hw.not_within_of_below ha)
        · exact StateSet.mem_insert.2 (.inr (hknown y hy a hya ha))
      rw [hw.mem_mark hs hinsert, StateSet.mem_insert]
      constructor
      · rintro ((rfl | h) | ⟨hsx, hx⟩)
        · exact .inr ⟨hs, .refl _⟩
        · exact .inl h
        · exact .inr ⟨hsx, hx.within⟩
      · rintro (h | ⟨hsx, hx⟩)
        · exact .inl (.inr h)
        · rcases within_iff.1 hx with rfl | hx
          · exact .inl (.inl rfl)
          · exact .inr ⟨hsx, hx⟩
    · next hs =>
      rw [isDescendant_iff, ← within_iff] at hs
      refine ⟨.inl, ?_⟩
      rintro (h | ⟨hsx, hx⟩)
      · exact h
      · exact absurd (hw.within_trans hsx hx) hs
  have hclosed : ∀ (known : StateSet) s, c.ClosedUpTo top known → c.ClosedUpTo top _ :=
    fun known s hknown => hw.closedUpTo_of_mem_iff hknown (hstep known s hknown)
      (fun x hx => hx.1) (fun x hsx hx => ⟨hsx, hx.within⟩)
  rw [markFrom, StateSet.mem_foldl (fun known s _ => hstep known s)
    (fun known s _ => hclosed known s) hknown, hw.mem_closure]
  simp only [StateSet.mem_def, ← and_assoc, exists_and_right]

omit hw in
theorem exitSet_eq {t : Transition} {current : StateSet} (ht : t.targets ≠ []) :
    c.exitSet t current =
      (((c.branchBelow (c.scope t) t.source).filter c.isRegion).flatMap c.siblings).foldl
        (fun known sibling => c.markFrom current sibling known)
        (c.markBelow current t.source
          (StateSet.ofList (c.branchBelow (c.scope t) t.source))) := by
  have hempty : t.targets.isEmpty = false := by simpa using ht
  rw [List.foldl_flatMap]
  simp only [exitSet, path, hempty, Bool.false_eq_true, if_false]
  congr
  funext known region
  unfold siblings
  cases c.parent region <;> rfl

theorem mem_siblings_exited {t : Transition} {d : Option Nat} {y : Nat} (hd : c.IsDomain t d) :
    y ∈ ((c.branchBelow d t.source).filter c.isRegion).flatMap c.siblings ↔
      ∃ p r, c.kind p = .parallel ∧ c.parent r = some p ∧ c.Ordinary r ∧ c.Within t.source r ∧
        c.InDomain r d ∧ y ∈ c.children p := by
  simp only [List.mem_flatMap, List.mem_filter, hw.mem_branchBelow hd.source_within, siblings,
    isRegion]
  constructor
  · rintro ⟨r, ⟨⟨hsr, hr⟩, hregion⟩, hy⟩
    cases hp : c.parent r with
    | none => simp [hp] at hy
    | some p =>
      simp only [hp, Bool.and_eq_true, Bool.not_eq_true', decide_eq_true_eq] at hregion hy
      exact ⟨p, r, hregion.2, hp, ⟨lt_size_of_parent hp, hregion.1⟩, hsr, hr, hy⟩
  · rintro ⟨p, r, hk, hp, hordinary, hsr, hr, hy⟩
    exact ⟨r, ⟨⟨hsr, hr⟩, by simp [hp, hk, hordinary.2]⟩, by simpa [hp] using hy⟩

/-- The states beside the way up lie below the domain, and what is above them is above the
source. -/
theorem sibling_exited {t : Transition} {d : Option Nat} {y : Nat} (hd : c.IsDomain t d)
    (hy : y ∈ ((c.branchBelow d t.source).filter c.isRegion).flatMap c.siblings) :
    c.InDomain y d ∧ ∀ a, c.Below y a → c.Within t.source a := by
  obtain ⟨p, r, -, hr, -, hsr, hrd, hy⟩ := (hw.mem_siblings_exited hd).1 hy
  have hyp := (hw.mem_children.1 hy).1
  refine ⟨?_, ?_⟩
  · intro a ha
    exact (hw.below_iff_within_parent hyp).2 ((hw.below_iff_within_parent hr).1 (hrd a ha))
  · intro a hya
    have hpa := (hw.below_iff_within_parent hyp).1 hya
    exact hw.within_trans hsr ((hw.below_iff_within_parent hr).2 hpa).within

/-- The walk below the source adds what is active there to the way up. -/
theorem mem_markBelow_source {t : Transition} {current : StateSet} {d : Option Nat}
    (hd : c.IsDomain t d) (y : Nat) :
    y ∈ c.markBelow current t.source (StateSet.ofList (c.branchBelow d t.source)) ↔
      (c.Within t.source y ∧ c.InDomain y d) ∨
        y ∈ c.closure current.members ∧ c.Below y t.source := by
  have hup : ∀ y, y ∈ StateSet.ofList (c.branchBelow d t.source) ↔
      c.Within t.source y ∧ c.InDomain y d := by
    intro y
    rw [StateSet.mem_ofList, hw.mem_branchBelow hd.source_within]
  rw [hw.mem_markBelow, hup]
  intro z hz a hza ha
  exact absurd (hw.within_trans ((hup z).1 hz).1 hza) (hw.not_within_of_below ha)

theorem holdsWay_source {t : Transition} {current : StateSet} {d : Option Nat}
    (hd : c.IsDomain t d) : c.HoldsWay t d
      (c.markBelow current t.source (StateSet.ofList (c.branchBelow d t.source))) where
  way y hsy hy := (hw.mem_markBelow_source hd y).2 (.inl ⟨hsy, hy⟩)
  around := by
    intro z hz a hza ha
    rw [hw.mem_markBelow_source hd] at hz ⊢
    rcases hz with ⟨hsz, -⟩ | ⟨hzA, hzs⟩
    · exact .inl ⟨hw.within_trans hsz hza, ha⟩
    · rcases hw.within_or_below hzs.within hza with hsa | has
      · exact .inl ⟨hsa, ha⟩
      · exact .inr ⟨hw.closure_upward hzA hza, has⟩

/-- The walk below a state beside the way up adds all that is active there. -/
theorem mem_markFrom_sibling {t : Transition} {current known : StateSet} {d : Option Nat} {y : Nat}
    (hd : c.IsDomain t d)
    (hy : y ∈ ((c.branchBelow d t.source).filter c.isRegion).flatMap c.siblings)
    (hknown : c.HoldsWay t d known) (x : Nat) :
    x ∈ c.markFrom current y known ↔
      x ∈ known ∨ x ∈ c.closure current.members ∧ c.Within x y := by
  refine hw.mem_markFrom ?_ x
  intro z hz a hza ha
  apply hknown.around z hz a hza
  exact hw.inDomain_of_within ha.within (hw.sibling_exited hd hy).1

theorem holdsWay_markFrom {t : Transition} {current known : StateSet} {d : Option Nat} {y : Nat}
    (hd : c.IsDomain t d)
    (hy : y ∈ ((c.branchBelow d t.source).filter c.isRegion).flatMap c.siblings)
    (hknown : c.HoldsWay t d known) : c.HoldsWay t d (c.markFrom current y known) where
  way z hsz hz := (hw.mem_markFrom_sibling hd hy hknown z).2 (.inl (hknown.way z hsz hz))
  around := by
    intro z hz a hza ha
    rw [hw.mem_markFrom_sibling hd hy hknown] at hz ⊢
    rcases hz with hz | ⟨hzA, hzy⟩
    · exact .inl (hknown.around z hz a hza ha)
    · rcases hw.within_or_below hza hzy with hay | hya
      · exact .inr ⟨hw.closure_upward hzA hza, hay⟩
      · exact .inl (hknown.way a ((hw.sibling_exited hd hy).2 a hya) ha)

/-- Where the source and an active state below the domain part, the regions lie below it. -/
theorem region_inDomain {t : Transition} {d : Option Nat} {p r x y : Nat} (hd : c.IsDomain t d)
    (hx : c.InDomain x d) (hy : c.parent y = some p) (hr : c.parent r = some p) (hyr : y ≠ r)
    (hxy : c.Within x y) (hsr : c.Within t.source r) : c.InDomain r d := by
  intro a ha
  apply (hw.below_iff_within_parent hr).2
  have hsource := hd.source_within a ha
  have hsp := hw.below_of_within_child hr hsr
  rcases hw.within_or_below hsp.within hsource with hpa | hap
  · exact hpa
  · obtain ⟨z, hz, haz⟩ := hw.exists_child_of_below hap
    apply absurd _ hyr
    rw [hw.child_unique hy hz hxy (hw.within_trans (hx a ha).within haz),
      hw.child_unique hr hz hsr (hw.within_trans hsource haz)]

/-- A transition with targets leaves what is active below its domain. -/
theorem mem_exitSet {t : Transition} {current : StateSet} {d : Option Nat}
    (hl : c.Legal (c.closure current.members)) (ht : t.targets ≠ [])
    (hs : t.source ∈ c.closure current.members) (hd : c.IsDomain t d) (x : Nat) :
    x ∈ c.exitSet t current ↔ x ∈ c.closure current.members ∧ c.InDomain x d := by
  have hstep : ∀ known, ∀ y ∈ ((c.branchBelow d t.source).filter c.isRegion).flatMap c.siblings,
      c.HoldsWay t d known → ∀ x, x ∈ c.markFrom current y known ↔
        x ∈ known ∨ x ∈ c.closure current.members ∧ c.Within x y :=
    fun known y hy => hw.mem_markFrom_sibling hd hy
  rw [exitSet_eq ht, hw.isDomain_unique (hw.isDomain_scope t) hd,
    StateSet.mem_foldl hstep (fun known y hy => hw.holdsWay_markFrom hd hy)
      (hw.holdsWay_source hd), hw.mem_markBelow_source hd]
  constructor
  · rintro ((⟨hsx, hx⟩ | ⟨hxA, hxs⟩) | ⟨y, hy, hxA, hxy⟩)
    · exact ⟨hw.closure_upward hs hsx, hx⟩
    · exact ⟨hxA, fun a ha => hw.below_of_below_of_within hxs (hd.source_within a ha)⟩
    · exact ⟨hxA, hw.inDomain_of_within hxy (hw.sibling_exited hd hy).1⟩
  · rintro ⟨hxA, hx⟩
    rcases hw.joinable_of_legal hl hxA hs with hxs | hsx | ⟨p, hp, y, r, hy, hr, hyr, hxy, hsr⟩
    · rcases within_iff.1 hxs with rfl | hxs
      · exact .inl (.inl ⟨.refl _, hx⟩)
      · exact .inl (.inr ⟨hxA, hxs⟩)
    · exact .inl (.inl ⟨hsx, hx⟩)
    · -- The branches part at a parallel state, which lies within the domain.
      have hrd := hw.region_inDomain hd hx hy hr hyr hxy hsr
      have hyA := hw.closure_upward hxA hxy
      refine .inr ⟨y, (hw.mem_siblings_exited hd).2 ⟨p, r, hp, hr, ?_, hsr, hrd, ?_⟩, hxA, hxy⟩
      · exact hl.ordinary (hw.closure_upward hs hsr)
      · exact hw.mem_children.2 ⟨hy, (hl.ordinary hyA).2⟩

/-- Below its domain a transition has an active state. -/
theorem exists_active_inDomain {t : Transition} {active : StateSet} {d : Option Nat}
    (hl : c.Legal active) (hs : t.source ∈ active) (hd : c.IsDomain t d) :
    ∃ x ∈ active, c.InDomain x d := by
  cases hd with
  | source hstays =>
    obtain ⟨x, ⟨hx, hxA⟩, -⟩ := hl.compound hs hstays.2.1
    exact ⟨x, hxA, inDomain_some.2 (hw.below_parent (hw.mem_children.1 hx).1)⟩
  | spanning _ hd => exact ⟨t.source, hs, inDomain_some.2 hd.2.1⟩
  | whole => exact ⟨t.source, hs, inDomain_none t.source⟩

theorem inDomain_of_contains {d e : Option Nat} (h : c.Contains d e) {x : Nat}
    (hx : c.InDomain x e) : c.InDomain x d := by
  intro a ha
  obtain ⟨b, rfl, hba⟩ := h a ha
  exact hw.below_of_below_of_within (hx b rfl) hba.within

/-- Two domains with a state in common are the same, or one contains the other. -/
theorem contains_of_inDomain {d e : Option Nat} {x : Nat} (hd : c.InDomain x d)
    (he : c.InDomain x e) : d = e ∨ c.Contains d e ∨ c.Contains e d := by
  cases d with
  | none => exact .inr (.inl fun a ha => nomatch ha)
  | some a =>
    cases e with
    | none => exact .inr (.inr fun b hb => nomatch hb)
    | some b =>
      rcases hw.within_or_below (hd a rfl).within (he b rfl).within with h | h
      · rcases within_iff.1 h with rfl | h
        · exact .inl rfl
        · refine .inr (.inr ?_)
          rintro _ ⟨⟩
          exact ⟨a, rfl, h⟩
      · refine .inr (.inl ?_)
        rintro _ ⟨⟩
        exact ⟨b, rfl, h⟩

theorem inConflict_iff {t u : Transition} {current : StateSet} {d e : Option Nat}
    (hl : c.Legal (c.closure current.members)) (ht : t.targets ≠ []) (hu : u.targets ≠ [])
    (hs : t.source ∈ c.closure current.members) (hs' : u.source ∈ c.closure current.members)
    (hd : c.IsDomain t d) (he : c.IsDomain u e) :
    c.inConflict t u current = true ↔ d = e ∨ c.Contains d e ∨ c.Contains e d := by
  have hshare : c.inConflict t u current = true ↔
      ∃ x ∈ c.closure current.members, c.InDomain x d ∧ c.InDomain x e := by
    have hdisjoint := StateSet.isDisjoint_iff (s := c.exitSet t current) (t := c.exitSet u current)
    rw [inConflict, Bool.not_eq_true', Bool.eq_false_iff, ne_eq, hdisjoint]
    simp only [not_forall, Classical.not_not, hw.mem_exitSet hl ht hs hd,
      hw.mem_exitSet hl hu hs' he]
    constructor
    · rintro ⟨x, ⟨hx, hxd⟩, -, hxe⟩
      exact ⟨x, hx, hxd, hxe⟩
    · rintro ⟨x, hx, hxd, hxe⟩
      exact ⟨x, ⟨hx, hxd⟩, hx, hxe⟩
  rw [hshare]
  constructor
  · rintro ⟨x, -, hxd, hxe⟩
    exact hw.contains_of_inDomain hxd hxe
  · rintro (rfl | hcontains | hcontains)
    · obtain ⟨x, hx, hxd⟩ := hw.exists_active_inDomain hl hs hd
      exact ⟨x, hx, hxd, hxd⟩
    · obtain ⟨x, hx, hxe⟩ := hw.exists_active_inDomain hl hs' he
      exact ⟨x, hx, hw.inDomain_of_contains hcontains hxe, hxe⟩
    · obtain ⟨x, hx, hxd⟩ := hw.exists_active_inDomain hl hs hd
      exact ⟨x, hx, hxd, hw.inDomain_of_contains hcontains hxd⟩

end WellFormed

/-- In a chart that is handed out, with a legal configuration: every transition with targets and
an active source has one domain, it leaves exactly the active states below it, and two such
transitions are in conflict exactly if their domains are equal or one contains the other. -/
theorem exitSet_eq_domain {o : Outline} (h : o.build = .ok c) {current : StateSet}
    (hl : c.Legal (c.closure current.members)) (t : Transition) (ht : t.targets ≠ [])
    (hs : t.source ∈ c.closure current.members) :
    ∃ d, c.IsDomain t d ∧ (∀ e, c.IsDomain t e → e = d) ∧
      (∀ x, x ∈ c.exitSet t current ↔ x ∈ c.closure current.members ∧ c.InDomain x d) ∧
      ∀ u : Transition, u.targets ≠ [] → u.source ∈ c.closure current.members →
        ∀ e, c.IsDomain u e → (c.inConflict t u current = true ↔
          d = e ∨ c.Contains d e ∨ c.Contains e d) := by
  have hw := (Outline.wellFormed_of_build h).1
  have hd := hw.isDomain_scope t
  refine ⟨c.scope t, hd, fun e he => hw.isDomain_unique he hd, hw.mem_exitSet hl ht hs hd, ?_⟩
  intro u hu hs' e he
  exact hw.inConflict_iff hl ht hu hs hs' hd he

/-- In the player, paused and loud, the transition to playing has a domain and leaves what is
active below it. -/
theorem exitSet_player : ∃ d, Outline.player.chart.IsDomain (Outline.player.chart.transition 1) d ∧
    ∀ x, x ∈ Outline.player.chart.exitSet (Outline.player.chart.transition 1)
      (StateSet.ofList [2, 6]) ↔
      x ∈ Outline.player.chart.closure (StateSet.ofList [2, 6]).members ∧
        Outline.player.chart.InDomain x d := by
  have hw := (Outline.wellFormed_of_build Outline.build_player).1
  have hatomic : Outline.player.chart.AllAtomic (StateSet.ofList [2, 6]) := by
    intro s hs
    simp only [StateSet.mem_ofList, List.mem_cons, List.not_mem_nil, or_false] at hs
    rcases hs with rfl | rfl <;> decide +kernel
  have hlegal := (hw.violations_eq_nil_iff hatomic).1 (by decide +kernel)
  obtain ⟨d, hd, -, hexit, -⟩ := exitSet_eq_domain Outline.build_player hlegal
    (Outline.player.chart.transition 1) (by decide +kernel)
    (hw.mem_closure_of_mem (by decide +kernel))
  exact ⟨d, hd, hexit⟩

end Statechart.Chart
