import Statechart.Proofs.Chart.ExitSet
import Statechart.Proofs.Steering
import Statechart.Proofs.TargetLists

/-!
What states that go together complete to. To enter a state is to enter all its regions if it is
parallel, and what its default entry completes to if it is compound; and targets complete to what is
entered with each of them and with every region, of a parallel state around one of them, that none
of them lies in. An expansion reaches just this, in whatever order the targets stand: the states
that wait and those that were reached complete to the same at every step. They are pairwise in
different regions, so a compound state is never entered in vain, and nothing is expanded twice.
-/

namespace Statechart

namespace Chart

/-- `r` is a region of a parallel state in the domain `d` and above one of `targets`, and none of
these lies in `r`. -/
def LeftOut (c : Chart) (targets : List Nat) (d : Option Nat) (r : Nat) : Prop :=
  ∃ p t, c.kind p = .parallel ∧ c.InDomain p d ∧ t ∈ targets ∧ c.Below t p ∧ r ∈ c.children p ∧
    ∀ u ∈ targets, ¬ c.Within u r

/-- The state without children `x` is entered with `s`. -/
inductive Enters (c : Chart) : Nat → Nat → Prop where
  | atomic {s : Nat} (hs : c.isAtomic s = true) : Enters c s s
  | region {s r x : Nat} (hs : c.kind s = .parallel) (hr : r ∈ c.children s) (h : Enters c r x) :
    Enters c s x
  | entry {s q x : Nat} (hs : c.kind s = .compound)
    (hq : q ∈ c.defaultTargets s ∨ c.LeftOut (c.defaultTargets s) (some s) q) (h : Enters c q x) :
    Enters c s x

/-- The state without children `x` is among what `targets` complete to in the domain `d`. -/
def Completes (c : Chart) (targets : List Nat) (d : Option Nat) (x : Nat) : Prop :=
  ∃ q, (q ∈ targets ∨ c.LeftOut targets d q) ∧ c.Enters q x

/-- No default entry names a pseudo-state. -/
def PlainEntries (c : Chart) : Prop :=
  ∀ i, c.kind i = .initial → ∀ t ∈ (c.node i).transitions, ∀ x ∈ (c.transition t).targets,
    c.isPseudo x = false

variable {c : Chart}

theorem enters_of_atomic {s x : Nat} (hs : c.isAtomic s = true) : c.Enters s x ↔ x = s := by
  constructor
  · intro h
    cases h with
    | atomic _ => rfl
    | region hk _ _ => simp [isAtomic, hk, NodeKind.isAtomic] at hs
    | entry hk _ _ => simp [isAtomic, hk, NodeKind.isAtomic] at hs
  · rintro rfl
    exact .atomic hs

theorem enters_of_parallel {s x : Nat} (hs : c.kind s = .parallel) :
    c.Enters s x ↔ ∃ r ∈ c.children s, c.Enters r x := by
  constructor
  · intro h
    cases h with
    | atomic hatomic => simp [isAtomic, hs, NodeKind.isAtomic] at hatomic
    | region _ hr h => exact ⟨_, hr, h⟩
    | entry hk _ _ => simp [hs] at hk
  · rintro ⟨r, hr, h⟩
    exact .region hs hr h

theorem enters_of_compound {s x : Nat} (hs : c.kind s = .compound) :
    c.Enters s x ↔ c.Completes (c.defaultTargets s) (some s) x := by
  constructor
  · intro h
    cases h with
    | atomic hatomic => simp [isAtomic, hs, NodeKind.isAtomic] at hatomic
    | region hk _ _ => simp [hs] at hk
    | entry _ hq h => exact ⟨_, hq, h⟩
  · rintro ⟨q, hq, h⟩
    exact .entry hs hq h

theorem leftOut_congr {targets targets' : List Nat} (h : ∀ t, t ∈ targets' ↔ t ∈ targets)
    {d : Option Nat} {r : Nat} : c.LeftOut targets' d r ↔ c.LeftOut targets d r := by
  simp [LeftOut, h]

theorem completes_congr {targets targets' : List Nat} (h : ∀ t, t ∈ targets' ↔ t ∈ targets)
    {d : Option Nat} {x : Nat} : c.Completes targets' d x ↔ c.Completes targets d x := by
  simp [Completes, h, leftOut_congr h]

namespace WellFormed

variable (hw : c.WellFormed)

include hw

/-- The regions of a parallel state leave out nothing below it. -/
theorem not_leftOut_children {s r : Nat} : ¬ c.LeftOut (c.children s) (some s) r := by
  rintro ⟨p, t, -, hps, ht, htp, -, -⟩
  have hsp : c.Within s p := (hw.below_iff_within_parent (hw.mem_children.1 ht).1).1 htp
  exact hw.not_within_of_below (hps s rfl) hsp

section Replace

variable {W W' T : List Nat} {s : Nat} (hmem : ∀ w, w ∈ W' ↔ w ∈ T ∨ w ∈ W ∧ w ≠ s) (hs : s ∈ W)
  (hne : T ≠ []) (hbelow : ∀ t ∈ T, c.Below t s)
  (hregions : c.kind s = .parallel → ∀ r ∈ c.children s, ∃ t ∈ T, c.Within t r)
  (hapart : ∀ w ∈ W, w ≠ s → ¬ c.Within w s)

include hmem hs hne hbelow hregions hapart

/-- What is left out in the end was left out before, or is so below the state. -/
theorem leftOut_replace {r : Nat} :
    c.LeftOut W' none r ↔ c.LeftOut W none r ∨ c.LeftOut T (some s) r := by
  obtain ⟨t₀, ht₀⟩ := List.exists_mem_of_ne_nil T hne
  constructor
  · rintro ⟨p, t, hp, -, ht, htp, hr, hfree⟩
    have hfreeT : ∀ u ∈ T, ¬ c.Within u r := fun u hu => hfree u ((hmem u).2 (.inl hu))
    have hsr : ¬ c.Within s r :=
      fun h => hfreeT t₀ ht₀ (hw.within_trans (hbelow t₀ ht₀).within h)
    have hfreeW : ∀ w ∈ W, ¬ c.Within w r := by
      intro w hw' h
      by_cases hws : w = s
      · exact hsr (hws ▸ h)
      · exact hfree w ((hmem w).2 (.inr ⟨hw', hws⟩)) h
    rcases (hmem t).1 ht with hT | ⟨hW, -⟩
    · rcases hw.within_or_below (hbelow t hT).within htp.within with hsp | hps
      · rcases within_iff.1 hsp with rfl | hsp
        · -- The state is parallel, and every region of it holds one of those below.
          obtain ⟨u, hu, hur⟩ := hregions hp r hr
          exact absurd hur (hfreeT u hu)
        · exact .inl ⟨p, s, hp, nofun, hs, hsp, hr, hfreeW⟩
      · refine .inr ⟨p, t, hp, ?_, hT, htp, hr, hfreeT⟩
        rintro a ⟨⟩
        exact hps
    · exact .inl ⟨p, t, hp, nofun, hW, htp, hr, hfreeW⟩
  · rintro (⟨p, w, hp, -, hW, hwp, hr, hfree⟩ | ⟨p, t, hp, hps, hT, htp, hr, hfree⟩)
    · have hsr : ¬ c.Within s r := hfree s hs
      -- Where the branch of one below passes the region, the region lies below the state.
      have hfreeT : ∀ u ∈ T, ¬ c.Within u r := by
        intro u hu hur
        rcases hw.within_or_below (hbelow u hu).within hur with h | hrs
        · exact hsr h
        · have hps : c.Within p s :=
            (hw.below_iff_within_parent (hw.mem_children.1 hr).1).1 hrs
          have hws : c.Below w s := hw.below_of_below_of_within hwp hps
          exact hapart w hW (fun h => hw.not_below_self s (h ▸ hws)) hws.within
      have hfree' : ∀ u ∈ W', ¬ c.Within u r := by
        intro u hu
        rcases (hmem u).1 hu with hu | ⟨hu, -⟩
        · exact hfreeT u hu
        · exact hfree u hu
      by_cases hws : w = s
      · subst hws
        exact ⟨p, t₀, hp, nofun, (hmem t₀).2 (.inl ht₀),
          hw.below_of_below_of_within (hbelow t₀ ht₀) hwp.within, hr, hfree'⟩
      · exact ⟨p, w, hp, nofun, (hmem w).2 (.inr ⟨hW, hws⟩), hwp, hr, hfree'⟩
    · refine ⟨p, t, hp, nofun, (hmem t).2 (.inl hT), htp, hr, ?_⟩
      intro u hu hur
      rcases (hmem u).1 hu with hu | ⟨hu, hus⟩
      · exact hfree u hu hur
      · have hrp : c.Below r p := hw.below_parent (hw.mem_children.1 hr).1
        have hrs : c.Below r s := hw.below_of_below_of_within hrp (hps s rfl).within
        exact hapart u hu hus (hw.within_trans hur hrs.within)

/-- If below the state they complete to what is entered with it, all complete to the same. -/
theorem completes_replace (henters : ∀ x, c.Enters s x ↔ c.Completes T (some s) x) {x : Nat} :
    c.Completes W' none x ↔ c.Completes W none x := by
  have hleft : ∀ {r}, c.LeftOut W' none r ↔ c.LeftOut W none r ∨ c.LeftOut T (some s) r :=
    hw.leftOut_replace hmem hs hne hbelow hregions hapart
  constructor
  · rintro ⟨q, hq, hx⟩
    have hinside : c.Completes T (some s) x → c.Completes W none x :=
      fun h => ⟨s, .inl hs, (henters x).2 h⟩
    rcases hq with hq | hq
    · rcases (hmem q).1 hq with hT | ⟨hW, -⟩
      · exact hinside ⟨q, .inl hT, hx⟩
      · exact ⟨q, .inl hW, hx⟩
    · rcases hleft.1 hq with hq | hq
      · exact ⟨q, .inr hq, hx⟩
      · exact hinside ⟨q, .inr hq, hx⟩
  · rintro ⟨q, hq | hq, hx⟩
    · by_cases hqs : q = s
      · subst hqs
        obtain ⟨u, hu | hu, hux⟩ := (henters x).1 hx
        · exact ⟨u, .inl ((hmem u).2 (.inl hu)), hux⟩
        · exact ⟨u, .inr (hleft.2 (.inr hu)), hux⟩
      · exact ⟨q, .inl ((hmem q).2 (.inr ⟨hq, hqs⟩)), hx⟩
    · exact ⟨q, .inr (hleft.2 (.inl hq)), hx⟩

end Replace

theorem orthogonal_irrefl {s : Nat} : ¬ c.Orthogonal s s :=
  fun h => hw.not_within_of_orthogonal h (.refl s)

omit hw in
theorem orthogonal_of_joinable {a b : Nat} (h : c.Joinable a b) (hab : ¬ c.Within a b)
    (hba : ¬ c.Within b a) : c.Orthogonal a b :=
  (h.resolve_left hab).resolve_left hba

end WellFormed

end Chart

namespace Expansion

variable {c : Chart} {histories : Histories} {goals queue next : List Nat} {e e' : Expansion}

/-- The states that wait and those that were reached lie in different regions, have not waited
before, and complete to what `goals` complete to. -/
structure Spread (c : Chart) (goals queue : List Nat) (e : Expansion) : Prop where
  ordinary : ∀ q ∈ queue, c.Ordinary q
  atomic : c.AllAtomic e.targets
  waiting : queue.Pairwise c.Orthogonal
  between : ∀ {q f}, q ∈ queue → f ∈ e.targets → c.Orthogonal q f
  reached : ∀ {f g}, f ∈ e.targets → g ∈ e.targets → f ≠ g → c.Orthogonal f g
  fresh : ∀ q ∈ queue, q ∉ e.visited
  visited : ∀ v ∈ e.visited, c.Ordinary v
  carried : ∀ v ∈ e.visited, v ∈ e.targets ∨
    ∃ w, (w ∈ queue ∨ w ∈ e.targets) ∧ c.Below w v
  completes : ∀ x, c.Completes (queue ++ e.targets.members) none x ↔ c.Completes goals none x

theorem spread_start {goals : List Nat} (hordinary : ∀ q ∈ goals, c.Ordinary q)
    (hapart : goals.Pairwise c.Orthogonal) : Spread c goals goals .empty where
  ordinary := hordinary
  atomic _ hf := absurd hf (StateSet.not_mem_empty _)
  waiting := hapart
  between _ hf := absurd hf (StateSet.not_mem_empty _)
  reached hf := absurd hf (StateSet.not_mem_empty _)
  fresh _ _ := StateSet.not_mem_empty _
  visited _ hv := absurd hv (StateSet.not_mem_empty _)
  carried _ hv := absurd hv (StateSet.not_mem_empty _)
  completes _ := by rw [show Expansion.empty.targets.members = [] from rfl, List.append_nil]

theorem Spread.supported (h : Spread c goals queue e) : Supported c [] queue e where
  leading q hq := .inl (h.ordinary q hq)
  fresh q hq _ := h.fresh q hq
  once := by
    have hnone : queue.filter c.isPseudo = [] :=
      List.filter_eq_nil_iff.2 (fun q hq => by simp [(h.ordinary q hq).2])
    rw [hnone]
    exact .nil
  atomic := h.atomic
  bounded v hv := (h.visited v hv).1
  carried v hv := by
    rw [Chart.anchor_of_ordinary (h.visited v hv).2]
    exact h.carried v hv
  kept _ hx := absurd hx List.not_mem_nil

/-- Nothing else that waits or was reached lies within the state that waits first. -/
theorem Spread.orthogonal {q : Nat} (h : Spread c goals (q :: queue) e) {w : Nat}
    (hw : w ∈ queue ∨ w ∈ e.targets) : c.Orthogonal q w := by
  rcases hw with hw | hw
  · exact List.rel_of_pairwise_cons h.waiting hw
  · exact h.between List.mem_cons_self hw

/-- A state without children is reached. -/
theorem Spread.reach {q : Nat} (hw : c.WellFormed) (h : Spread c goals (q :: queue) e)
    (hatomic : c.isAtomic q = true) (hvisited : e'.visited = e.visited.insert q)
    (htargets : e'.targets = e.targets.insert q) : Spread c goals queue e' := by
  have hq : c.Ordinary q := h.ordinary q List.mem_cons_self
  have hmem : ∀ {f}, f ∈ e'.targets ↔ f = q ∨ f ∈ e.targets := by
    intro f
    rw [htargets, StateSet.mem_insert]
  have hseen : ∀ {v}, v ∈ e'.visited ↔ v = q ∨ v ∈ e.visited := by
    intro v
    rw [hvisited, StateSet.mem_insert]
  exact {
    ordinary := fun x hx => h.ordinary x (List.mem_cons_of_mem q hx)
    atomic := by
      intro f hf
      rcases hmem.1 hf with rfl | hf
      · exact ⟨hatomic, hq.1⟩
      · exact h.atomic f hf
    waiting := h.waiting.of_cons
    between := by
      intro x f hx hf
      rcases hmem.1 hf with rfl | hf
      · exact (h.orthogonal (.inl hx)).symm
      · exact h.between (List.mem_cons_of_mem q hx) hf
    reached := by
      intro f g hf hg hne
      rcases hmem.1 hf with rfl | hf
      · exact h.orthogonal (.inr ((hmem.1 hg).resolve_left (Ne.symm hne)))
      · rcases hmem.1 hg with rfl | hg
        · exact (h.orthogonal (.inr hf)).symm
        · exact h.reached hf hg hne
    fresh := by
      intro x hx hv
      rcases hseen.1 hv with rfl | hv
      · exact hw.orthogonal_irrefl (h.orthogonal (.inl hx))
      · exact h.fresh x (List.mem_cons_of_mem q hx) hv
    visited := by
      intro v hv
      rcases hseen.1 hv with rfl | hv
      · exact hq
      · exact h.visited v hv
    carried := by
      intro v hv
      rcases hseen.1 hv with rfl | hv
      · exact .inl (hmem.2 (.inl rfl))
      · rcases h.carried v hv with hv | ⟨w, hwaits | hw', hwv⟩
        · exact .inl (hmem.2 (.inr hv))
        · rcases List.mem_cons.1 hwaits with rfl | hwaits
          · exact .inr ⟨w, .inr (hmem.2 (.inl rfl)), hwv⟩
          · exact .inr ⟨w, .inl hwaits, hwv⟩
        · exact .inr ⟨w, .inr (hmem.2 (.inr hw')), hwv⟩
    completes := by
      intro x
      rw [← h.completes x]
      refine Chart.completes_congr fun t => ?_
      simp only [List.mem_append, List.mem_cons, ← StateSet.mem_def, hmem]
      tauto }

/-- A composite state gives way to states below it that complete to what is entered with it. -/
theorem Spread.replace {q : Nat} (hw : c.WellFormed) (h : Spread c goals (q :: queue) e)
    (hvisited : e'.visited = e.visited.insert q) (htargets : e'.targets = e.targets)
    (hne : next ≠ []) (hnext : ∀ x ∈ next, c.Ordinary x ∧ c.Below x q)
    (hapart : next.Pairwise c.Orthogonal)
    (hregions : c.kind q = .parallel → ∀ r ∈ c.children q, ∃ x ∈ next, c.Within x r)
    (henters : ∀ x, c.Enters q x ↔ c.Completes next (some q) x) :
    Spread c goals (queue ++ next) e' := by
  have hq : c.Ordinary q := h.ordinary q List.mem_cons_self
  have hseen : ∀ {v}, v ∈ e'.visited ↔ v = q ∨ v ∈ e.visited := by
    intro v
    rw [hvisited, StateSet.mem_insert]
  obtain ⟨y, hy⟩ := List.exists_mem_of_ne_nil next hne
  -- Whatever else waits or was reached is apart from what lies below the state.
  have hother : ∀ {x w}, x ∈ next → w ∈ queue ∨ w ∈ e.targets → c.Orthogonal x w :=
    fun hx hw' => Chart.WellFormed.Orthogonal.mono hw (h.orthogonal hw') (hnext _ hx).2.within
      (.refl _)
  have hnot : ∀ {w}, w ∈ queue ∨ w ∈ e.targets → ¬ c.Within w q :=
    fun hw' => hw.not_within_of_orthogonal (h.orthogonal hw').symm
  exact {
    ordinary := by
      intro x hx
      rcases List.mem_append.1 hx with hx | hx
      · exact h.ordinary x (List.mem_cons_of_mem q hx)
      · exact (hnext x hx).1
    atomic := htargets ▸ h.atomic
    waiting := List.pairwise_append.2
      ⟨h.waiting.of_cons, hapart, fun w hw' x hx => (hother hx (.inl hw')).symm⟩
    between := by
      intro x f hx hf
      rw [htargets] at hf
      rcases List.mem_append.1 hx with hx | hx
      · exact h.between (List.mem_cons_of_mem q hx) hf
      · exact hother hx (.inr hf)
    reached := htargets ▸ h.reached
    fresh := by
      intro x hx hv
      rcases List.mem_append.1 hx with hx | hx
      · rcases hseen.1 hv with rfl | hv
        · exact hnot (.inl hx) (.refl x)
        · exact h.fresh x (List.mem_cons_of_mem q hx) hv
      · have hxq := (hnext x hx).2
        rcases hseen.1 hv with rfl | hv
        · exact hw.not_below_self x hxq
        · -- What was visited lives on, and nothing but the state itself lives on within it.
          rcases h.carried x hv with hf | ⟨w, hwaits | hf, hwx⟩
          · exact hnot (.inr hf) hxq.within
          · have hwq := hw.below_of_below_of_within hwx hxq.within
            rcases List.mem_cons.1 hwaits with rfl | hwaits
            · exact hw.not_below_self w hwq
            · exact hnot (.inl hwaits) hwq.within
          · exact hnot (.inr hf) (hw.below_of_below_of_within hwx hxq.within).within
    visited := by
      intro v hv
      rcases hseen.1 hv with rfl | hv
      · exact hq
      · exact h.visited v hv
    carried := by
      intro v hv
      rw [htargets]
      have hbelow : ∀ {w}, w ∈ q :: queue → c.Below w v →
          ∃ w, (w ∈ queue ++ next ∨ w ∈ e.targets) ∧ c.Below w v := by
        intro w hwaits hwv
        rcases List.mem_cons.1 hwaits with rfl | hwaits
        · exact ⟨y, .inl (List.mem_append_right _ hy),
            hw.below_of_below_of_within (hnext y hy).2 hwv.within⟩
        · exact ⟨w, .inl (List.mem_append_left _ hwaits), hwv⟩
      rcases hseen.1 hv with rfl | hv
      · exact .inr ⟨y, .inl (List.mem_append_right _ hy), (hnext y hy).2⟩
      · rcases h.carried v hv with hf | ⟨w, hwaits | hf, hwv⟩
        · exact .inl hf
        · exact .inr (hbelow hwaits hwv)
        · exact .inr ⟨w, .inr hf, hwv⟩
    completes := by
      intro x
      rw [← h.completes x, htargets]
      have hapart' : ∀ w ∈ q :: queue ++ e.targets.members, w ≠ q → ¬ c.Within w q := by
        intro w hw' hwq
        rcases List.mem_append.1 hw' with hw' | hw'
        · exact hnot (.inl ((List.mem_cons.1 hw').resolve_left hwq))
        · exact hnot (.inr hw')
      have hqw : ∀ w, w ∈ queue ∨ w ∈ e.targets.members → w ≠ q := by
        rintro w hw' rfl
        exact hnot hw' (.refl w)
      refine hw.completes_replace (T := next) ?_ (by simp) hne (fun x hx => (hnext x hx).2)
        hregions hapart' henters
      intro w
      have := hqw w
      simp only [List.mem_append, List.mem_cons]
      tauto }

/-- A region has one parallel state, and is missing there once. -/
theorem nodup_missing (hw : c.WellFormed) (residual : StateSet) (e : Expansion) :
    (e.missing c residual).Nodup := by
  unfold missing
  refine List.Nodup.filter _ (List.nodup_flatMap.2 ⟨?_, ?_⟩)
  · intro p _
    exact (hw.children_ascending p).imp Nat.ne_of_lt
  · refine ((c.closure (residual.members ++ e.targets.members)).ascending.filter _).imp ?_
    intro p q hpq r hrp hrq
    have hparent := (hw.mem_children.1 hrp).1.symm.trans (hw.mem_children.1 hrq).1
    exact absurd (Option.some.inj hparent) (Nat.ne_of_lt hpq)

/-- When nothing waits, the missing regions are those that are left out. -/
theorem Spread.mem_missing (hw : c.WellFormed) (h : Spread c goals [] e) {r : Nat} :
    r ∈ e.missing c ∅ ↔ c.LeftOut e.targets.members none r := by
  have hnone : ∀ {f}, f ∈ (∅ : StateSet) ∨ f ∈ e.targets ↔ f ∈ e.targets.members := by
    intro f
    exact or_iff_right (StateSet.not_mem_empty f)
  rw [Expansion.mem_missing hw]
  simp only [hnone]
  constructor
  · rintro ⟨⟨p, f, hf, hfp, hp, hr⟩, hfree, -⟩
    have hbelow : c.Below f p := by
      rcases Chart.within_iff.1 hfp with rfl | hbelow
      · exact absurd (.inr hp) (h.atomic.not_composite hf)
      · exact hbelow
    exact ⟨p, f, hp, nofun, hf, hbelow, hr, hfree⟩
  · rintro ⟨p, f, hp, -, hf, hfp, hr, hfree⟩
    refine ⟨⟨p, f, hf, hfp.within, hp, hr⟩, hfree, fun hv => ?_⟩
    rcases h.carried r hv with hr | ⟨w, hw', hwr⟩
    · exact hfree r hr (.refl r)
    · exact hfree w (hw'.resolve_left List.not_mem_nil) hwr.within

theorem Spread.refill (hw : c.WellFormed) (h : Spread c goals [] e) :
    Spread c goals (e.missing c ∅) e := by
  have hsettled : ∀ {a b}, a ∈ (∅ : StateSet) ∨ a ∈ e.targets → b ∈ (∅ : StateSet) ∨ b ∈ e.targets →
      c.Joinable a b := by
    intro a b ha hb
    have ha := ha.resolve_left (StateSet.not_mem_empty a)
    have hb := hb.resolve_left (StateSet.not_mem_empty b)
    by_cases hab : a = b
    · exact hab ▸ .refl a
    · exact (h.reached ha hb hab).joinable
  have hjoined : Joined c ∅ (e.missing c ∅) e :=
    Joined.start hw (fun f hf => absurd hf (StateSet.not_mem_empty f))
      ⟨.nil, hsettled, fun hq => absurd hq List.not_mem_nil, fun hq => absurd hq List.not_mem_nil⟩
      h.atomic
  have hordinary : ∀ r ∈ e.missing c ∅, c.Ordinary r := fun r hr => ordinary_of_mem_missing hw hr
  have hleft : ∀ {r}, r ∈ e.missing c ∅ → c.LeftOut e.targets.members none r :=
    fun hr => (h.mem_missing hw).1 hr
  -- Nothing reached lies within a missing region, so that no such region lies within another.
  have hapart : ∀ {r s}, r ∈ e.missing c ∅ → s ∈ e.missing c ∅ → r ≠ s → ¬ c.Within s r := by
    intro r s hr hs hrs hsr
    obtain ⟨-, -, -, -, -, -, -, hfree⟩ := hleft hr
    obtain ⟨p, f, -, -, hf, hfp, hsp, -⟩ := hleft hs
    rcases Chart.within_iff.1 hsr with heq | hbelow
    · exact hrs heq.symm
    · have hpr := (hw.below_iff_within_parent (hw.mem_children.1 hsp).1).1 hbelow
      exact hfree f hf (hw.within_trans hfp.within hpr)
  exact {
    ordinary := hordinary
    atomic := h.atomic
    waiting := by
      refine (hjoined.waiting.and (nodup_missing hw ∅ e)).imp_of_mem ?_
      rintro r s hr hs ⟨hrs, hne⟩
      exact Chart.WellFormed.orthogonal_of_joinable
        (Chart.joinable_of_apart (hordinary r hr).2 (hordinary s hs).2 hrs)
        (hapart hs hr (Ne.symm hne)) (hapart hr hs hne)
    between := by
      intro r f hr hf
      obtain ⟨-, -, -, -, -, -, -, hfree⟩ := hleft hr
      have hrf := Chart.joinable_of_apart (hordinary r hr).2 (h.atomic.ordinary hf).2
        (hjoined.between hr (.inr hf))
      refine Chart.WellFormed.orthogonal_of_joinable hrf (fun hwithin => ?_) (hfree f hf)
      obtain rfl := hw.eq_of_within (h.atomic.not_composite hf) hwithin
      exact hfree r hf (.refl r)
    reached := h.reached
    fresh := fun r hr => ((Expansion.mem_missing hw).1 hr).2.2
    visited := h.visited
    carried := by
      intro v hv
      rcases h.carried v hv with hf | ⟨w, hw', hwv⟩
      · exact .inl hf
      · exact .inr ⟨w, .inr (hw'.resolve_left List.not_mem_nil), hwv⟩
    completes := by
      intro x
      rw [← h.completes x, List.nil_append]
      constructor
      · rintro ⟨q, hq, hx⟩
        refine ⟨q, ?_, hx⟩
        rcases hq with hq | ⟨p, t, hp, -, ht, htp, hqp, hfree⟩
        · rcases List.mem_append.1 hq with hq | hq
          · exact .inr (hleft hq)
          · exact .inl hq
        · have hfree' : ∀ f ∈ e.targets.members, ¬ c.Within f q :=
            fun f hf => hfree f (List.mem_append_right _ hf)
          rcases List.mem_append.1 ht with ht | ht
          · -- A region beside a missing one lies beside something that was reached.
            obtain ⟨p', f, -, -, hf, hfp', htp', -⟩ := hleft ht
            have hpp := (hw.below_iff_within_parent (hw.mem_children.1 htp').1).1 htp
            exact .inr ⟨p, f, hp, nofun, hf, hw.below_of_below_of_within hfp' hpp, hqp, hfree'⟩
          · exact .inr ⟨p, t, hp, nofun, ht, htp, hqp, hfree'⟩
      · rintro ⟨q, hq, hx⟩
        refine ⟨q, .inl (List.mem_append.2 ?_), hx⟩
        exact hq.symm.imp_left (h.mem_missing hw).2 }

/-- What the expansion of a state leads to takes its place. -/
theorem Spread.expand (hw : c.WellFormed) (hc : c.Checked) (hp : c.PlainEntries) {q : Nat}
    (h : Spread c goals (q :: queue) e) (hvisited : e'.visited = e.visited.insert q)
    (hexpands : Expands c histories queue q { e with visited := e.visited.insert q } e' next) :
    Spread c goals (queue ++ next) e' := by
  cases hexpands with
  | atomic hs htargets =>
    rw [List.append_nil]
    exact h.reach hw hs hvisited htargets
  | entered _ ha hbelow _ =>
    exact absurd hbelow.within (hw.not_within_of_orthogonal (h.orthogonal ha).symm)
  | entry hs _ hi hparent ht htargets hdefault =>
    obtain ⟨hapart, hbelow⟩ := hc.entry hi hparent ht
    refine h.replace hw hvisited htargets ?_ ?_ hapart ?_ ?_
    · obtain ⟨t', ht', hne⟩ := hw.pseudo_transition (Chart.isPseudo_of_initial hi)
      rw [ht', List.mem_singleton] at ht
      rwa [ht]
    · exact fun x hx => ⟨⟨hw.targets_lt hx, hp _ hi _ ht x hx⟩, hbelow x hx⟩
    · intro hparallel
      rw [hs] at hparallel
      cases hparallel
    · intro x
      rw [Chart.enters_of_compound hs, Chart.defaultTargets, hdefault]
  | regions hs htargets =>
    refine h.replace hw hvisited htargets (hw.children_ne_nil (.inr hs)) ?_ ?_ ?_ ?_
    · exact fun r hr =>
        ⟨hw.ordinary_of_mem_children hr, hw.below_parent (hw.mem_children.1 hr).1⟩
    · apply (hw.children_ascending q).imp_of_mem
      intro r s hr hs' hrs
      exact Chart.orthogonal_of_children hs (hw.mem_children.1 hr).1 (hw.mem_children.1 hs').1
        (Nat.ne_of_lt hrs)
    · exact fun _ r hr => ⟨r, hr, .refl r⟩
    · intro x
      rw [Chart.enters_of_parallel hs]
      constructor
      · rintro ⟨r, hr, hx⟩
        exact ⟨r, .inl hr, hx⟩
      · rintro ⟨r, hr | hleft, hx⟩
        · exact ⟨r, hr, hx⟩
        · exact absurd hleft hw.not_leftOut_children
  | history hs _ =>
    have hordinary := (h.ordinary q List.mem_cons_self).2
    rw [hs.isPseudo] at hordinary
    cases hordinary

theorem keptByDrain_spread (hw : c.WellFormed) (hc : c.Checked) (hp : c.PlainEntries)
    (histories : Histories) (goals : List Nat) :
    KeptByDrain c histories ∅ [] (Spread c goals) where
  supported h := h.supported
  drop {queue e} h := by
    cases queue with
    | nil => exact h
    | cons q rest =>
      rwa [List.dropWhile_cons_of_neg (by simpa using h.fresh q List.mem_cons_self)]
  missing h := h.refill hw
  expand {q queue e} h _ := by
    obtain ⟨hvisited, hexpands⟩ := expands_expand hw histories queue
      { e with visited := e.visited.insert q } (.inl (h.ordinary q List.mem_cons_self))
    exact h.expand hw hc hp hvisited hexpands

/-- When nothing is left to expand, what was reached is all that it completes to. -/
theorem Spread.mem_targets (hw : c.WellFormed) (h : Spread c goals [] e)
    (hmissing : e.missing c ∅ = []) {x : Nat} : x ∈ e.targets ↔ c.Completes goals none x := by
  rw [← h.completes x, List.nil_append]
  constructor
  · exact fun hx => ⟨x, .inl hx, .atomic (h.atomic x hx).1⟩
  · rintro ⟨q, hq | hq, hx⟩
    · rwa [(Chart.enters_of_atomic (h.atomic q hq).1).1 hx]
    · rw [← h.mem_missing hw, hmissing] at hq
      cases hq

end Expansion

/-- The expansion of states that go together reaches what they complete to, whatever their order and
whatever histories remember, as long as no default entry names a pseudo-state. -/
theorem Chart.expand_targets {c : Chart} {o : Outline} (hbuild : o.build = .ok c)
    (hp : c.PlainEntries) {goals : List Nat} (hordinary : ∀ s ∈ goals, c.Ordinary s)
    (hcompatible : c.areCompatible goals = true) (histories : Histories) {seeds : List Nat}
    (horder : seeds.Perm goals) (x : Nat) :
    x ∈ (c.expand histories seeds ∅).targets ↔ c.Completes goals none x := by
  obtain ⟨hw, hc⟩ := Outline.wellFormed_of_build hbuild
  have hapart : seeds.Pairwise c.Orthogonal :=
    (horder.pairwise_iff fun h => h.symm).2 (hw.areCompatible_iff.1 hcompatible)
  have hspread := Expansion.spread_start (fun s hs => hordinary s (horder.mem_iff.1 hs)) hapart
  obtain ⟨hdone, hmissing⟩ := (Expansion.keptByDrain_spread hw hc hp histories seeds).drain hw
    c.nodes.size seeds .empty hspread (Nat.le_add_right _ _)
  rw [← Chart.completes_congr fun s => horder.mem_iff (a := s)]
  exact hdone.mem_targets hw hmissing

/-- Where the player is to be playing it is loud as well, and not paused. -/
theorem Chart.expand_targets_player :
    Outline.player.chart.Completes [3] none 3 ∧ Outline.player.chart.Completes [3] none 6 ∧
      ¬ Outline.player.chart.Completes [3] none 2 := by
  have hordinary : ∀ s ∈ [3], Outline.player.chart.Ordinary s := by
    intro s hs
    rw [List.mem_singleton.1 hs]
    exact ⟨by decide +kernel, by decide +kernel⟩
  have htargets := Chart.expand_targets Outline.build_player Chart.plain_player.direct.entries
    hordinary (by decide +kernel) ∅ (List.Perm.refl [3])
  have hmembers : (Outline.player.chart.expand ∅ [3] ∅).targets.members = [3, 6] := by
    decide +kernel
  simp only [StateSet.mem_def, hmembers] at htargets
  rw [← htargets, ← htargets, ← htargets]
  decide

end Statechart
