import Mathlib.Data.List.Pairwise
import Statechart.Interpreter.Microstep
import Statechart.Proofs.Chart.ExitSet
import Statechart.Proofs.Recording
import Statechart.Proofs.TargetLists

/-!
What transitions that fire together lead to. Their domains lie in different regions, so that
what one of them leads to cannot clash with what another leads to, nor with what stays active;
within one domain the targets go together because they were checked, and the regions beside
those that are entered because nothing covers them. So the states active after the step have a
legal closure, and what stays active is part of it.
-/

namespace Statechart

namespace Chart

/-- The transitions `ts` can fire together when the states without children that are active are
`states`: their sources are active, and none leaves what another leaves. -/
structure FireTogether (c : Chart) (states : StateSet) (ts : List Nat) : Prop where
  lt_size : ∀ t ∈ ts, t < c.transitions.size
  source : ∀ t ∈ ts, (c.transition t).source ∈ c.closure states.members
  disjoint : ts.Pairwise fun t u => c.inConflict (c.transition t) (c.transition u) states = false

/-- What `q` leads to lies within the domain `d`. -/
def Inside (c : Chart) (q : Nat) (d : Option Nat) : Prop :=
  ∀ a, d = some a → c.Within (c.anchor q) a

/-- What the transitions `ts` leave when the states without children that are active are
`states`. -/
def exited (c : Chart) (states : StateSet) (ts : List Nat) : StateSet :=
  ts.foldl (fun exits t => exits.union (c.exitSet (c.transition t) states)) ∅

/-- What stays active when the transitions `ts` fire. -/
def staying (c : Chart) (states : StateSet) (ts : List Nat) : StateSet :=
  states.diff (c.exited states ts)

variable {c : Chart}

theorem inConflict_comm (t u : Transition) (states : StateSet) :
    c.inConflict t u states = c.inConflict u t states := by
  have hswap : ∀ {s t : StateSet}, s.isDisjoint t = true → t.isDisjoint s = true := by
    intro s t h
    rw [StateSet.isDisjoint_iff] at h ⊢
    exact fun x hx hs => h x hs hx
  unfold inConflict
  congr 1
  rw [Bool.eq_iff_iff]
  exact ⟨hswap, hswap⟩

theorem placeBy_perm (before : Nat → Nat → Bool) (x : Nat) (xs : List Nat) :
    (placeBy before x xs).Perm (x :: xs) := by
  induction xs with
  | nil => exact .refl _
  | cons y rest ih =>
    rw [placeBy]
    split
    · exact (ih.cons y).trans (.swap x y rest)
    · exact .refl _

theorem sortBy_perm (before : Nat → Nat → Bool) (xs : List Nat) : (sortBy before xs).Perm xs := by
  induction xs with
  | nil => exact .refl _
  | cons x rest ih => exact (placeBy_perm before x _).trans (ih.cons x)

/-- Sorting puts in order whatever `before` decides. -/
theorem pairwise_sortBy {before : Nat → Nat → Bool} {R : Nat → Nat → Prop}
    (htrans : ∀ {x y z}, R x y → R y z → R x z) (hbefore : ∀ {x y}, before x y = true → R x y)
    (hafter : ∀ {x y}, ¬ before x y = true → R y x) (xs : List Nat) :
    (sortBy before xs).Pairwise R := by
  have hplace : ∀ (x : Nat) {ys : List Nat}, ys.Pairwise R → (placeBy before x ys).Pairwise R := by
    intro x ys h
    induction ys with
    | nil => exact List.pairwise_singleton _ _
    | cons y rest ih =>
      obtain ⟨hy, hrest⟩ := List.pairwise_cons.1 h
      rw [placeBy]
      split
      · next hyx =>
        refine List.pairwise_cons.2 ⟨?_, ih hrest⟩
        intro z hz
        rcases List.mem_cons.1 ((placeBy_perm _ x rest).mem_iff.1 hz) with rfl | hz
        · exact hbefore hyx
        · exact hy z hz
      · next hyx =>
        have hxy := hafter hyx
        refine List.pairwise_cons.2 ⟨?_, h⟩
        intro z hz
        rcases List.mem_cons.1 hz with rfl | hz
        · exact hxy
        · exact htrans hxy (hy z hz)
  induction xs with
  | nil => exact .nil
  | cons x rest ih => exact hplace x ih

theorem mem_entryOrder {states : List Nat} {x : Nat} : x ∈ c.entryOrder states ↔ x ∈ states :=
  (sortBy_perm _ _).mem_iff

theorem nodup_entryOrder (c : Chart) (states : StateSet) : (c.entryOrder states.members).Nodup :=
  (sortBy_perm _ _).nodup_iff.2 states.members_nodup

theorem mem_exitList {histories : Histories} {before : Status} {ts : List Nat} {x : Nat} :
    x ∈ (c.plan histories before ts).exitList ↔ x ∈ c.exited before.states ts :=
  (sortBy_perm _ _).mem_iff

/-- What is to be active and is not active still is entered. -/
theorem mem_entryList {histories : Histories} {before : Status} {ts : List Nat} {x : Nat} :
    x ∈ (c.plan histories before ts).entryList ↔
      x ∈ c.closure (c.plan histories before ts).next.members ∧
        ¬ (x ∈ before.all ∧ x ∉ (c.plan histories before ts).exitList) := by
  rw [mem_exitList, plan, mem_entryOrder, ← StateSet.mem_def, StateSet.mem_diff, StateSet.mem_diff]
  rfl

namespace WellFormed

variable (hw : c.WellFormed)

include hw

theorem anchor_within_of_below {q a : Nat} (h : c.Below q a) : c.Within (c.anchor q) a := by
  unfold anchor
  split
  · obtain ⟨p, hp, hpa⟩ := hw.exists_parent_of_below h
    rw [hp]
    exact hpa
  · exact h.within

theorem within_anchor (q : Nat) : c.Within q (c.anchor q) := by
  unfold anchor
  split
  · cases hp : c.parent q with
    | none => exact .refl q
    | some p => exact (hw.below_parent hp).within
  · exact .refl q

omit hw in
theorem inside_of_target {t : Transition} {d : Option Nat} {x : Nat} (hw : c.WellFormed)
    (hd : c.IsDomain t d) (hx : x ∈ t.targets) : c.Inside x d := by
  rintro a rfl
  exact hw.anchor_within_of_below ((domain_spec hd).2.2 x hx)

theorem mem_regionsEntered {t : Transition} {r : Nat} (hr : r ∈ (c.path t).regionsEntered) :
    ∃ x ∈ t.targets, c.Within x r ∧ c.InDomain r (c.scope t) ∧ c.isRegion r = true := by
  unfold path at hr
  split at hr
  · cases hr
  · obtain ⟨hr, hregion⟩ := List.mem_filter.1 hr
    rw [mem_entryOrder, List.mem_eraseDups, List.mem_flatMap] at hr
    obtain ⟨x, hx, hr⟩ := hr
    have hscope : ∀ a, c.scope t = some a → c.Within x a := by
      intro a ha
      have hd := hw.isDomain_scope t
      rw [ha] at hd
      exact ((domain_spec hd).2.2 x hx).within
    obtain ⟨hxr, hdomain⟩ := (hw.mem_branchBelow hscope).1 hr
    exact ⟨x, hx, hxr, hdomain, hregion⟩

end WellFormed

/-- A region beside one that `t` enters, with no target in it. -/
structure Beside (c : Chart) (ts : List Nat) (t x p q : Nat) : Prop where
  target : x ∈ (c.transition t).targets
  region : ∃ r, c.parent r = some p ∧ c.Ordinary r ∧ c.Within x r ∧
    c.InDomain r (c.scope (c.transition t))
  parallel : c.kind p = .parallel
  child : q ∈ c.children p
  free : ∀ u ∈ ts, ∀ y ∈ (c.transition u).targets, ¬ c.Within y q

theorem mem_seeds (hw : c.WellFormed) {residual : StateSet} {ts : List Nat} {q : Nat}
    (hq : q ∈ c.seeds residual ts) : (∃ t ∈ ts, q ∈ (c.transition t).targets) ∨
      ∃ t ∈ ts, ∃ x p, c.Beside ts t x p q := by
  unfold seeds at hq
  simp only [List.mem_eraseDups, List.mem_append, List.mem_flatMap, List.mem_filter,
    decide_eq_true_eq] at hq
  rcases hq with hq | ⟨⟨t, ht, r, hr, hq⟩, hfree⟩
  · exact .inl hq
  · obtain ⟨x, hx, hxr, hdomain, hregion⟩ := hw.mem_regionsEntered hr
    cases hp : c.parent r with
    | none => simp [hp] at hq
    | some p =>
      simp only [hp] at hq
      simp only [isRegion, hp, Bool.and_eq_true, Bool.not_eq_true', decide_eq_true_eq] at hregion
      refine .inr ⟨t, ht, x, p, hx, ⟨r, hp, ⟨lt_size_of_parent hp, hregion.1⟩, hxr, hdomain⟩,
        hregion.2, hq, ?_⟩
      intro u hu y hy hyq
      refine hfree (hw.mem_closure.2 ⟨y, ?_, hyq⟩)
      simp only [List.mem_append, List.mem_eraseDups, List.mem_flatMap]
      exact .inr ⟨u, hu, hy⟩

theorem mem_seeds_of_target {residual : StateSet} {ts : List Nat} {t x : Nat} (ht : t ∈ ts)
    (hx : x ∈ (c.transition t).targets) : x ∈ c.seeds residual ts := by
  unfold seeds
  simp only [List.mem_eraseDups, List.mem_append, List.mem_flatMap]
  exact .inl ⟨t, ht, hx⟩

section Firing

variable {states : StateSet} {ts : List Nat}

theorem FireTogether.not_inConflict (h : c.FireTogether states ts) {t u : Nat} (ht : t ∈ ts)
    (hu : u ∈ ts) (hne : t ≠ u) :
    c.inConflict (c.transition t) (c.transition u) states = false := by
  have hsymm : Std.Symm
      (fun t u => c.inConflict (c.transition t) (c.transition u) states = false) := by
    refine ⟨?_⟩
    intro t u htu
    rw [inConflict_comm]
    exact htu
  exact h.disjoint.forall ht hu hne

variable (hw : c.WellFormed) (hl : c.Legal (c.closure states.members))
  (hfire : c.FireTogether states ts)

include hw hl hfire

/-- The domain of a transition that fires is active. -/
theorem domain_active {t a : Nat} (ht : t ∈ ts) (hd : c.IsDomain (c.transition t) (some a)) :
    a ∈ c.closure states.members :=
  hw.upward_of_legal hl (hfire.source t ht) (domain_spec hd).2.1

/-- The domains of two transitions that fire lie in different regions. -/
theorem domains_orthogonal {t u : Nat} {d e : Option Nat} (ht : t ∈ ts) (hu : u ∈ ts)
    (hne : t ≠ u) (htt : (c.transition t).targets ≠ []) (hut : (c.transition u).targets ≠ [])
    (hd : c.IsDomain (c.transition t) d) (he : c.IsDomain (c.transition u) e) :
    ∃ a b, d = some a ∧ e = some b ∧ c.Orthogonal a b := by
  have hnot : ¬ (d = e ∨ c.Contains d e ∨ c.Contains e d) := by
    rw [← hw.inConflict_iff hl htt hut (hfire.source t ht) (hfire.source u hu) hd he,
      hfire.not_inConflict ht hu hne]
    simp
  simp only [not_or] at hnot
  cases d with
  | none => exact absurd (fun a ha => nomatch ha) hnot.2.1
  | some a =>
    cases e with
    | none => exact absurd (fun a ha => nomatch ha) hnot.2.2
    | some b =>
      refine ⟨a, b, rfl, rfl, ?_⟩
      have hcontains : ∀ {a b}, c.Below b a → c.Contains (some a) (some b) := by
        rintro a b hba _ ⟨⟩
        exact ⟨b, rfl, hba⟩
      rcases hw.joinable_of_legal hl (domain_active hw hl hfire ht hd)
          (domain_active hw hl hfire hu he) with hab | hba | horth
      · rcases within_iff.1 hab with rfl | hab
        · exact absurd rfl hnot.1
        · exact absurd (hcontains hab) hnot.2.2
      · rcases within_iff.1 hba with rfl | hba
        · exact absurd rfl hnot.1
        · exact absurd (hcontains hba) hnot.2.1
      · exact horth

/-- What lies within the domains of two transitions that fire lies in different regions. -/
theorem orthogonal_of_inside {t u q w : Nat} {d e : Option Nat} (ht : t ∈ ts) (hu : u ∈ ts)
    (hne : t ≠ u) (htt : (c.transition t).targets ≠ []) (hut : (c.transition u).targets ≠ [])
    (hd : c.IsDomain (c.transition t) d) (he : c.IsDomain (c.transition u) e)
    (hq : c.Inside q d) (hwi : c.Inside w e) : c.Orthogonal (c.anchor q) (c.anchor w) := by
  obtain ⟨a, b, rfl, rfl, hab⟩ := domains_orthogonal hw hl hfire ht hu hne htt hut hd he
  exact WellFormed.Orthogonal.mono hw hab (hq a rfl) (hwi b rfl)

/-- What stays lies in other regions than what is inside a domain. -/
theorem orthogonal_of_stays {t q f : Nat} {d : Option Nat} (ht : t ∈ ts)
    (hd : c.IsDomain (c.transition t) d) (hq : c.Inside q d) (hf : f ∈ states)
    (hatomic : c.isAtomic f = true) (hstays : ¬ c.InDomain f d) :
    c.Orthogonal (c.anchor q) f := by
  cases d with
  | none => exact absurd (inDomain_none f) hstays
  | some a =>
    have hcomposite : c.IsComposite a := .inl (domain_spec hd).1
    rw [inDomain_some] at hstays
    have hnot : ¬ c.IsComposite f := fun h => by simp [h.not_atomic] at hatomic
    rcases hw.joinable_of_legal hl (domain_active hw hl hfire ht hd)
        (hw.mem_closure_of_mem hf) with haf | hfa | horth
    · obtain rfl := hw.eq_of_within hnot haf
      exact absurd hcomposite hnot
    · rcases within_iff.1 hfa with rfl | hfa
      · exact absurd hcomposite hnot
      · exact absurd hfa hstays
    · exact WellFormed.Orthogonal.mono hw horth (hq a rfl) (.refl f)

/-- The targets of a transition that fires. -/
theorem targets_of_fire (hc : c.Checked) (hp : c.Direct) {t : Nat} (ht : t ∈ ts) :
    (∃ h, c.IsHistory h ∧ (c.transition t).targets = [h]) ∨
      (∀ x ∈ (c.transition t).targets, c.Ordinary x) ∧
        (c.transition t).targets.Pairwise c.Orthogonal := by
  have hsource := (hl.ordinary (hfire.source t ht)).2
  rcases hp.targets t (hfire.lt_size t ht) hsource with hordinary | ⟨hlength, hhistory⟩
  · exact .inr ⟨fun x hx => ⟨hw.targets_lt hx, hordinary x hx⟩,
      hc.targets (hfire.lt_size t ht) hsource⟩
  · obtain ⟨h, heq⟩ := List.length_eq_one_iff.1 hlength
    exact .inl ⟨h, hhistory h (by simp [heq]), heq⟩

theorem leading_of_fire (hc : c.Checked) (hp : c.Direct) {t x : Nat} (ht : t ∈ ts)
    (hx : x ∈ (c.transition t).targets) : c.Leading x := by
  rcases targets_of_fire hw hl hfire hc hp ht with ⟨h, hh, htargets⟩ | ⟨hordinary, -⟩
  · rw [htargets, List.mem_singleton] at hx
    rw [hx]
    exact .inr hh
  · exact .inl (hordinary x hx)

/-- Different targets go together. -/
theorem apart_of_targets (hc : c.Checked) (hp : c.Direct) {t u x y : Nat} (ht : t ∈ ts)
    (hu : u ∈ ts) (hx : x ∈ (c.transition t).targets) (hy : y ∈ (c.transition u).targets)
    (hxy : x ≠ y) : c.Apart x y := by
  by_cases htu : t = u
  · subst htu
    rcases targets_of_fire hw hl hfire hc hp ht with ⟨h, -, htargets⟩ | ⟨hordinary, hpair⟩
    · rw [htargets, List.mem_singleton] at hx hy
      rw [hx, hy] at hxy
      exact absurd rfl hxy
    · have hsymm : Std.Symm c.Orthogonal := ⟨fun _ _ h => h.symm⟩
      exact apart_of_joinable (hordinary x hx).2 (hordinary y hy).2
        (hpair.forall hx hy hxy).joinable
  · exact apart_of_orthogonal (orthogonal_of_inside hw hl hfire ht hu htu
      (List.ne_nil_of_mem hx) (List.ne_nil_of_mem hy) (hw.isDomain_scope _) (hw.isDomain_scope _)
      (WellFormed.inside_of_target hw (hw.isDomain_scope _) hx)
      (WellFormed.inside_of_target hw (hw.isDomain_scope _) hy))

omit hl hfire in
theorem Beside.ordinary {t x p q : Nat} (h : c.Beside ts t x p q) : c.Ordinary q :=
  hw.ordinary_of_mem_children h.child

omit hl hfire in
theorem Beside.inside {t x p q : Nat} (h : c.Beside ts t x p q) :
    c.Inside q (c.scope (c.transition t)) := by
  intro a ha
  obtain ⟨r, hr, -, -, hdomain⟩ := h.region
  rw [anchor_of_ordinary (h.ordinary hw).2]
  have hpa := (hw.below_iff_within_parent hr).1 (hdomain a ha)
  exact ((hw.below_iff_within_parent (hw.mem_children.1 h.child).1).2 hpa).within

omit hl hfire in
/-- A region goes together with a state inside a region beside it. -/
theorem Beside.orthogonal {t x p q : Nat} (h : c.Beside ts t x p q) (ht : t ∈ ts) :
    ∃ r, c.Ordinary r ∧ c.Within x r ∧ c.Orthogonal q r := by
  obtain ⟨r, hr, hordinary, hxr, -⟩ := h.region
  refine ⟨r, hordinary, hxr, orthogonal_of_children h.parallel (hw.mem_children.1 h.child).1 hr ?_⟩
  rintro rfl
  exact h.free t ht x h.target hxr

/-- A region beside one that is entered goes together with all targets. -/
theorem Beside.apart_target (hc : c.Checked) (hp : c.Direct) {t u x y p q : Nat} (ht : t ∈ ts)
    (hu : u ∈ ts) (h : c.Beside ts t x p q) (hy : y ∈ (c.transition u).targets) :
    c.Apart q y := by
  have hq := (h.ordinary hw).2
  by_cases htu : t = u
  · subst htu
    rcases targets_of_fire hw hl hfire hc hp ht with ⟨k, hk, htargets⟩ | ⟨hordinary, hpair⟩
    · -- The one history lies in the region that is entered, and so does the state around it.
      have hx := h.target
      rw [htargets, List.mem_singleton] at hx hy
      subst hx hy
      obtain ⟨r, hr, hyr, horth⟩ := h.orthogonal hw ht
      have hbelow : c.Below y r := by
        apply (within_iff.1 hyr).resolve_left
        rintro rfl
        have hpseudo := hk.isPseudo
        rw [hr.2] at hpseudo
        cases hpseudo
      apply apart_of_orthogonal
      rw [anchor_of_ordinary hq]
      exact WellFormed.Orthogonal.mono hw horth (.refl q) (hw.anchor_within_of_below hbelow)
    · apply apart_of_joinable hq (hordinary y hy).2
      obtain ⟨r, hr, -, hxr, -⟩ := h.region
      have hyx : c.Joinable y x := by
        by_cases hyx : y = x
        · rw [hyx]
          exact .refl x
        · have hsymm : Std.Symm c.Orthogonal := ⟨fun _ _ h => h.symm⟩
          exact (hpair.forall hy h.target hyx).joinable
      exact hw.joinable_region h.parallel (hw.mem_children.1 h.child).1
        (hw.below_of_within_child hr hxr) hyx (h.free t ht y hy)
  · exact apart_of_orthogonal (orthogonal_of_inside hw hl hfire ht hu htu
      (List.ne_nil_of_mem h.target) (List.ne_nil_of_mem hy) (hw.isDomain_scope _)
      (hw.isDomain_scope _) (h.inside hw)
      (WellFormed.inside_of_target hw (hw.isDomain_scope _) hy))

/-- Regions beside those that are entered go together. -/
theorem Beside.apart (hc : c.Checked) (hp : c.Direct) {t u x y p k q w : Nat} (ht : t ∈ ts)
    (hu : u ∈ ts) (h : c.Beside ts t x p q) (h' : c.Beside ts u y k w) : c.Apart q w := by
  have hq := (h.ordinary hw).2
  have hwo := (h'.ordinary hw).2
  by_cases htu : t = u
  · subst htu
    apply apart_of_joinable hq hwo
    by_cases hwq : c.Within w q
    · exact .inr (.inl hwq)
    · have hwx : c.Joinable w x := by
        have hapart := h'.apart_target hw hl hfire hc hp ht ht h.target
        cases hx : c.isPseudo x with
        | false => exact joinable_of_apart hwo hx hapart
        | true =>
          have horth := hapart.2 (.inr hx)
          rw [anchor_of_ordinary hwo] at horth
          exact (WellFormed.Orthogonal.mono hw horth (.refl w) (hw.within_anchor x)).joinable
      obtain ⟨r, hr, -, hxr, -⟩ := h.region
      exact hw.joinable_region h.parallel (hw.mem_children.1 h.child).1
        (hw.below_of_within_child hr hxr) hwx hwq
  · exact apart_of_orthogonal (orthogonal_of_inside hw hl hfire ht hu htu
      (List.ne_nil_of_mem h.target) (List.ne_nil_of_mem h'.target) (hw.isDomain_scope _)
      (hw.isDomain_scope _) (h.inside hw) (h'.inside hw))

/-- A state is left if it is active below the domain of a transition that fires. -/
theorem mem_exited {x : Nat} : x ∈ c.exited states ts ↔
    x ∈ c.closure states.members ∧ ∃ t ∈ ts, (c.transition t).targets ≠ [] ∧
      c.InDomain x (c.scope (c.transition t)) := by
  have hunion : x ∈ c.exited states ts ↔ ∃ t ∈ ts, x ∈ c.exitSet (c.transition t) states := by
    rw [exited, StateSet.mem_foldl_union]
    simp
  rw [hunion]
  constructor
  · rintro ⟨t, ht, hx⟩
    have htargets : (c.transition t).targets ≠ [] := by
      intro hnil
      simp [exitSet, hnil] at hx
    rw [hw.mem_exitSet hl htargets (hfire.source t ht) (hw.isDomain_scope _)] at hx
    exact ⟨hx.1, t, ht, htargets, hx.2⟩
  · rintro ⟨hx, t, ht, htargets, hdomain⟩
    refine ⟨t, ht, ?_⟩
    rw [hw.mem_exitSet hl htargets (hfire.source t ht) (hw.isDomain_scope _)]
    exact ⟨hx, hdomain⟩

/-- What stays lies below no domain of a transition that fires. -/
theorem outside_of_staying : ∀ f ∈ c.staying states ts, f ∈ states ∧ ∀ t ∈ ts,
    (c.transition t).targets ≠ [] → ¬ c.InDomain f (c.scope (c.transition t)) := by
  intro f hf
  obtain ⟨hfs, hfe⟩ := StateSet.mem_diff.1 hf
  refine ⟨hfs, ?_⟩
  intro t ht htargets hdomain
  exact hfe ((mem_exited hw hl hfire).2 ⟨hw.mem_closure_of_mem hfs, t, ht, htargets, hdomain⟩)

theorem seeds_cases (hc : c.Checked) (hp : c.Direct) {residual : StateSet} {q : Nat}
    (hq : q ∈ c.seeds residual ts) : c.Leading q ∧ ∃ t ∈ ts, (c.transition t).targets ≠ [] ∧
      c.Inside q (c.scope (c.transition t)) := by
  rcases mem_seeds hw hq with ⟨t, ht, hx⟩ | ⟨t, ht, x, p, hbeside⟩
  · exact ⟨leading_of_fire hw hl hfire hc hp ht hx, t, ht, List.ne_nil_of_mem hx,
      WellFormed.inside_of_target hw (hw.isDomain_scope _) hx⟩
  · exact ⟨.inl (hbeside.ordinary hw), t, ht, List.ne_nil_of_mem hbeside.target,
      hbeside.inside hw⟩

theorem seeds_supported (hc : c.Checked) (hp : c.Direct) (residual : StateSet) :
    Expansion.Supported c (c.seeds residual ts) (c.seeds residual ts) .empty := by
  refine Expansion.supported_start ?_ ?_
  · exact fun q hq => (seeds_cases hw hl hfire hc hp hq).1
  · exact (nodup_eraseDups _).sublist List.filter_sublist

theorem seeds_apart (hc : c.Checked) (hp : c.Direct) (residual : StateSet) :
    (c.seeds residual ts).Pairwise c.Apart := by
  have hnodup : (c.seeds residual ts).Nodup := nodup_eraseDups _
  apply hnodup.imp_of_mem
  intro q w hq hw' hne
  rcases mem_seeds hw hq with ⟨t, ht, hx⟩ | ⟨t, ht, x, p, hbeside⟩
  · rcases mem_seeds hw hw' with ⟨u, hu, hy⟩ | ⟨u, hu, y, k, hbeside'⟩
    · exact apart_of_targets hw hl hfire hc hp ht hu hx hy hne
    · exact (hbeside'.apart_target hw hl hfire hc hp hu ht hx).symm
  · rcases mem_seeds hw hw' with ⟨u, hu, hy⟩ | ⟨u, hu, y, k, hbeside'⟩
    · exact hbeside.apart_target hw hl hfire hc hp ht hu hy
    · exact hbeside.apart hw hl hfire hc hp ht hu hbeside'

theorem seeds_joined (hc : c.Checked) (hp : c.Direct) (hatomic : c.AllAtomic states)
    {residual : StateSet} (hresidual : ∀ f ∈ residual, f ∈ states ∧ ∀ t ∈ ts,
      (c.transition t).targets ≠ [] → ¬ c.InDomain f (c.scope (c.transition t))) :
    Expansion.Joined c residual (c.seeds residual ts) .empty := by
  have horth : ∀ {q f}, q ∈ c.seeds residual ts → f ∈ residual →
      c.Orthogonal (c.anchor q) f := by
    intro q f hq hf
    obtain ⟨-, t, ht, htargets, hinside⟩ := seeds_cases hw hl hfire hc hp hq
    obtain ⟨hfs, hstays⟩ := hresidual f hf
    exact orthogonal_of_stays hw hl hfire ht (hw.isDomain_scope _) hinside hfs
      (hatomic f hfs).1 (hstays t ht htargets)
  have hnone : ∀ {f}, f ∈ residual ∨ f ∈ Expansion.empty.targets → f ∈ residual := by
    rintro f (hf | hf)
    · exact hf
    · exact absurd hf (StateSet.not_mem_empty f)
  refine ⟨seeds_apart hw hl hfire hc hp residual, ?_, ?_, ?_⟩
  · intro a b ha hb
    exact hw.joinable_of_legal hl (hw.mem_closure_of_mem (hresidual a (hnone ha)).1)
      (hw.mem_closure_of_mem (hresidual b (hnone hb)).1)
  · intro q f hq hf
    have hordinary := (hatomic.ordinary (hresidual f (hnone hf)).1).2
    apply apart_of_orthogonal
    rw [anchor_of_ordinary hordinary]
    exact horth hq (hnone hf)
  · intro q r hq hr
    exact hw.not_within_of_orthogonal (horth hq hr).symm

omit hl hfire in
/-- Below the domain of a transition that fires, something is reached. -/
theorem reached_inDomain {residual : StateSet} {e : Expansion}
    (hdone : Expansion.Supported c (c.seeds residual ts) [] e) {t : Nat} (ht : t ∈ ts)
    (htargets : (c.transition t).targets ≠ []) :
    ∃ f ∈ e.targets, c.InDomain f (c.scope (c.transition t)) := by
  obtain ⟨x, hx⟩ := List.exists_mem_of_ne_nil _ htargets
  have hdomain := hw.isDomain_scope (c.transition t)
  have hvisited := (hdone.kept x (mem_seeds_of_target ht hx)).resolve_right List.not_mem_nil
  rcases hdone.carried x hvisited with hreach | ⟨y, hy, hbelow⟩
  · refine ⟨x, hreach, ?_⟩
    intro a ha
    rw [ha] at hdomain
    exact (domain_spec hdomain).2.2 x hx
  · refine ⟨y, hy.resolve_left List.not_mem_nil, ?_⟩
    intro a ha
    exact hw.below_of_below_of_within hbelow (WellFormed.inside_of_target hw hdomain hx a ha)

omit hl hfire in
/-- What lies around a state below a domain, but not below the domain itself, lies around all of
it. -/
theorem within_of_not_inDomain {d : Option Nat} {s f x : Nat} (hsx : c.Within s x)
    (hs : c.InDomain s d) (hf : c.InDomain f d) (hx : ¬ c.InDomain x d) : c.Within f x := by
  cases d with
  | none => exact absurd (inDomain_none x) hx
  | some a =>
    rcases hw.within_or_below (hs a rfl).within hsx with hax | hxa
    · exact hw.within_trans (hf a rfl).within hax
    · exact absurd (inDomain_some.2 hxa) hx

/-- What is active and not left stays active. -/
theorem mem_closure_of_not_exited {e : Expansion}
    (hdone : Expansion.Supported c (c.seeds (c.staying states ts) ts) [] e) {x : Nat}
    (hx : x ∈ c.closure states.members) (hxe : x ∉ c.exited states ts) :
    x ∈ c.closure ((c.staying states ts).union e.targets).members := by
  obtain ⟨s, hs, hsx⟩ := hw.mem_closure.1 hx
  by_cases hse : s ∈ c.exited states ts
  · obtain ⟨-, t, ht, htargets, hdomain⟩ := (mem_exited hw hl hfire).1 hse
    obtain ⟨f, hf, hfdomain⟩ := reached_inDomain hw hdone ht htargets
    refine hw.mem_closure.2 ⟨f, StateSet.mem_union.2 (.inr hf), ?_⟩
    apply within_of_not_inDomain hw hsx hdomain hfdomain
    intro hxd
    exact hxe ((mem_exited hw hl hfire).2 ⟨hx, t, ht, htargets, hxd⟩)
  · exact hw.mem_closure.2 ⟨s, StateSet.mem_union.2 (.inl (StateSet.mem_diff.2 ⟨hs, hse⟩)), hsx⟩

/-- If anything was active, something is. -/
theorem exists_mem_union {e : Expansion}
    (hdone : Expansion.Supported c (c.seeds (c.staying states ts) ts) [] e)
    (hne : ∃ s, s ∈ states) : ∃ x, x ∈ (c.staying states ts).union e.targets := by
  obtain ⟨s, hs⟩ := hne
  by_cases hse : s ∈ c.exited states ts
  · obtain ⟨-, t, ht, htargets, -⟩ := (mem_exited hw hl hfire).1 hse
    obtain ⟨f, hf, -⟩ := reached_inDomain hw hdone ht htargets
    exact ⟨f, StateSet.mem_union.2 (.inr hf)⟩
  · exact ⟨s, StateSet.mem_union.2 (.inl (StateSet.mem_diff.2 ⟨hs, hse⟩))⟩

end Firing

/-- The plan can be carried out from the active states `active`, and leads to a legal set. -/
structure Fits (c : Chart) (active : StateSet) (plan : Plan) : Prop where
  atomic : c.AllAtomic plan.next
  legal : c.Legal (c.closure plan.next.members)
  exits_nodup : plan.exitList.Nodup
  exits : ∀ {x}, x ∈ plan.exitList → x ∈ active
  stays : ∀ {x}, x ∈ active → x ∉ plan.exitList → x ∈ c.closure plan.next.members
  entries_nodup : plan.entryList.Nodup
  entries : ∀ {x}, x ∈ plan.entryList ↔
    x ∈ c.closure plan.next.members ∧ ¬ (x ∈ active ∧ x ∉ plan.exitList)
  nonempty : ∃ x, x ∈ plan.next

theorem fits_planStart (hw : c.WellFormed) (hc : c.Checked) (hp : c.Direct)
    {histories : Histories} (hr : c.RecallsBelow histories) (hj : c.RecallsJoined histories) :
    c.Fits ∅ (c.planStart histories) := by
  have hordinary : ∀ x ∈ c.initial, c.Ordinary x :=
    fun x hx => ⟨hw.initial_lt hx, hp.start x hx⟩
  have hempty : c.AllAtomic ∅ := fun s hs => absurd hs (StateSet.not_mem_empty s)
  have hsupported := Expansion.supported_of_ordinary hordinary
  have hapart := apart_of_pairwise hordinary (hc.start.imp Orthogonal.joinable)
  obtain ⟨hdone, hmissing⟩ := Expansion.supported_expand hw hc hp hr ∅ hsupported
  have hjoined := Expansion.joined_expand hw hc hp hr hj hempty hsupported
    (Expansion.joined_of_pairwise hapart)
  obtain ⟨hatomic, hlegal⟩ := Expansion.legal_of_expand hw hempty hdone hjoined hmissing
  rw [Expansion.union_empty] at hatomic hlegal
  refine ⟨hatomic, hlegal, .nil, ?_, ?_, ?_, ?_, Expansion.targets_nonempty hdone hw.initial_ne_nil⟩
  · intro x hx
    cases hx
  · intro x hx
    exact absurd hx (StateSet.not_mem_empty x)
  · exact c.nodup_entryOrder _
  · intro x
    simp only [planStart, mem_entryOrder, ← StateSet.mem_def]
    simp

/-- The plan of transitions that can fire together fits. -/
theorem fits_plan (hw : c.WellFormed) (hc : c.Checked) (hp : c.Direct) {histories : Histories}
    (hr : c.RecallsBelow histories) (hj : c.RecallsJoined histories) {before : Status}
    {ts : List Nat} (hatomic : c.AllAtomic before.states)
    (hall : before.all = c.closure before.states.members) (hl : c.Legal before.all)
    (hne : ∃ s, s ∈ before.states) (hfire : c.FireTogether before.states ts) :
    c.Fits before.all (c.plan histories before ts) := by
  have hmemAll : ∀ {x}, x ∈ before.all ↔ x ∈ c.closure before.states.members := by
    intro x
    rw [hall]
  rw [hall] at hl
  have hstay := outside_of_staying hw hl hfire
  have hstayAtomic : c.AllAtomic (c.staying before.states ts) :=
    fun f hf => hatomic f (hstay f hf).1
  have hsupported := seeds_supported hw hl hfire hc hp (c.staying before.states ts)
  obtain ⟨hdone, hmissing⟩ := Expansion.supported_expand hw hc hp hr _ hsupported
  have hjoined := Expansion.joined_expand hw hc hp hr hj hstayAtomic hsupported
    (seeds_joined hw hl hfire hc hp hatomic hstay)
  obtain ⟨hnext, hlegal⟩ := Expansion.legal_of_expand hw hstayAtomic hdone hjoined hmissing
  refine ⟨hnext, hlegal, ?_, ?_, ?_, c.nodup_entryOrder _, mem_entryList,
    exists_mem_union hw hl hfire hdone hne⟩
  · exact (sortBy_perm _ _).nodup_iff.2 (StateSet.members_nodup _)
  · intro x hx
    exact hmemAll.2 ((mem_exited hw hl hfire).1 (mem_exitList.1 hx)).1
  · intro x hx hxe
    exact mem_closure_of_not_exited hw hl hfire hdone (hmemAll.1 hx)
      (fun h => hxe (mem_exitList.2 h))

end Chart

namespace Configuration

variable {c : Chart}

theorem changeAll_cons {change : Configuration → Nat → Except ConfigurationError Configuration}
    {conf conf' : Configuration} {s : Nat} {rest : List Nat}
    (h : changeAll change conf (s :: rest) = (none, conf')) :
    ∃ next, change conf s = .ok next ∧ changeAll change next rest = (none, conf') := by
  rw [changeAll] at h
  split at h
  · next next hnext => exact ⟨next, hnext, h⟩
  · cases h

theorem mem_changeAll_exit {conf conf' : Configuration} {exits : List Nat}
    (h : changeAll (fun conf s => conf.exit c s) conf exits = (none, conf')) {x : Nat} :
    x ∈ conf'.active ↔ x ∈ conf.active ∧ x ∉ exits := by
  induction exits generalizing conf with
  | nil =>
    obtain ⟨-, rfl⟩ := Prod.mk.inj h
    simp
  | cons s rest ih =>
    obtain ⟨next, hnext, hrest⟩ := changeAll_cons h
    rw [exit] at hnext
    split at hnext
    · obtain rfl := Except.ok.inj hnext
      rw [ih hrest, StateSet.mem_erase, List.mem_cons, not_or, and_assoc]
    · cases hnext

theorem mem_changeAll_enter {conf conf' : Configuration} {entries : List Nat}
    (h : changeAll (fun conf s => conf.enter c s) conf entries = (none, conf')) {x : Nat} :
    x ∈ conf'.active ↔ x ∈ conf.active ∨ x ∈ entries := by
  induction entries generalizing conf with
  | nil =>
    obtain ⟨-, rfl⟩ := Prod.mk.inj h
    simp
  | cons s rest ih =>
    obtain ⟨next, hnext, hrest⟩ := changeAll_cons h
    rw [enter] at hnext
    split at hnext
    · cases hnext
    · split at hnext
      · cases hnext
      · obtain rfl := Except.ok.inj hnext
        rw [ih hrest, StateSet.mem_insert, List.mem_cons, or_left_comm, or_assoc]

/-- What a change that succeeds leaves active. -/
theorem mem_move {conf conf' : Configuration} {exits entries : List Nat}
    (h : conf.move c exits entries = (none, conf')) {x : Nat} :
    x ∈ conf'.active ↔ x ∈ conf.active ∧ x ∉ exits ∨ x ∈ entries := by
  rw [move] at h
  split at h
  · next left hleft => rw [mem_changeAll_enter h, mem_changeAll_exit hleft]
  · next failed => exact absurd h (failed conf')

end Configuration

namespace Chart

/-- States that are active can be left. -/
theorem changeAll_exit (c : Chart) (conf : Configuration) {exits : List Nat}
    (hnodup : exits.Nodup) (h : ∀ x ∈ exits, x ∈ conf.active) :
    ∃ conf', Configuration.changeAll (fun conf s => conf.exit c s) conf exits = (none, conf') := by
  induction exits generalizing conf with
  | nil => exact ⟨conf, rfl⟩
  | cons s rest ih =>
    rw [List.nodup_cons] at hnodup
    have hexit : conf.exit c s = .ok ⟨conf.active.erase s⟩ := by
      rw [Configuration.exit, if_pos (h s (by simp))]
    rw [Configuration.changeAll, hexit]
    apply ih ⟨conf.active.erase s⟩ hnodup.2
    intro x hx
    refine StateSet.mem_erase.2 ⟨h x (List.mem_cons_of_mem s hx), ?_⟩
    rintro rfl
    exact hnodup.1 hx

/-- States that are not active can be entered. -/
theorem changeAll_enter (c : Chart) (conf : Configuration) {entries : List Nat}
    (hnodup : entries.Nodup) (h : ∀ x ∈ entries, c.isPseudo x = false ∧ x ∉ conf.active) :
    ∃ conf', Configuration.changeAll (fun conf s => conf.enter c s) conf entries =
      (none, conf') := by
  induction entries generalizing conf with
  | nil => exact ⟨conf, rfl⟩
  | cons s rest ih =>
    rw [List.nodup_cons] at hnodup
    obtain ⟨hs, hinactive⟩ := h s (by simp)
    have henter : conf.enter c s = .ok ⟨conf.active.insert s⟩ := by
      simp [Configuration.enter, hs, hinactive]
    rw [Configuration.changeAll, henter]
    apply ih ⟨conf.active.insert s⟩ hnodup.2
    intro x hx
    obtain ⟨hxo, hxi⟩ := h x (List.mem_cons_of_mem s hx)
    refine ⟨hxo, ?_⟩
    rw [StateSet.mem_insert, not_or]
    refine ⟨?_, hxi⟩
    rintro rfl
    exact hnodup.1 hx

/-- Carrying out a plan that fits leaves exactly the closure of what it says active. -/
theorem Fits.move {active : StateSet} {plan : Plan} (h : c.Fits active plan)
    {conf : Configuration} (hconf : conf.active = active) :
    conf.move c plan.exitList plan.entryList = (none, ⟨c.closure plan.next.members⟩) := by
  obtain ⟨left, hleft⟩ := changeAll_exit c conf h.exits_nodup
    (fun x hx => by rw [hconf]; exact h.exits hx)
  obtain ⟨entered, hentered⟩ := changeAll_enter c left h.entries_nodup
    (by
      intro x hx
      obtain ⟨hxC, hxe⟩ := h.entries.1 hx
      rw [Configuration.mem_changeAll_exit hleft, hconf]
      exact ⟨(h.legal.ordinary hxC).2, hxe⟩)
  have hmove : conf.move c plan.exitList plan.entryList = (none, entered) := by
    rw [Configuration.move, hleft]
    exact hentered
  have hactive : entered.active = c.closure plan.next.members := by
    apply StateSet.ext
    intro x
    rw [Configuration.mem_move hmove, hconf, h.entries]
    constructor
    · rintro (⟨hx, hxe⟩ | ⟨hx, -⟩)
      · exact h.stays hx hxe
      · exact hx
    · intro hx
      by_cases hxa : x ∈ active ∧ x ∉ plan.exitList
      · exact .inl hxa
      · exact .inr ⟨hx, hxa⟩
  rw [hmove]
  cases entered
  exact congrArg (fun active => (none, Configuration.mk active)) hactive

end Chart

end Statechart
