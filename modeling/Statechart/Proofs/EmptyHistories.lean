import Statechart.Proofs.Chart.Problems
import Statechart.Proofs.Clearing
import Statechart.Proofs.Steering

/-!
Histories without a memory. A history that is written without a default and remembers nothing goes
where its state goes by default. So a list with the history alone and one with its state alone
reach the same: after the first step the same nodes wait, and the two expansions differ only in the
node that each has visited. That node can turn up again only if the default of the state names its
own default entry or one of its histories, and then it leads back to where both have been. Only if
such a circle leaves nothing reached can they part later on, when the state is met as a part of a
missing region.
-/

namespace Statechart

/-- The stores that come about by recording, whatever was active. -/
inductive Histories.Written (c : Chart) : Histories → Prop where
  | empty : Histories.Written c ∅
  | exit {histories : Histories} (h : Histories.Written c histories) (s : Nat) (before : Status) :
    Histories.Written c (histories.recordExit c s before)

/-- Every history remembers only what lies inside its state. -/
def Histories.Inside (c : Chart) (histories : Histories) : Prop :=
  ∀ h states, histories.get? h = some states →
    ∃ p, c.parent h = some p ∧ ∀ x ∈ states, c.Below x p

theorem Histories.Written.inside {c : Chart} (hw : c.WellFormed) {histories : Histories}
    (h : histories.Written c) : histories.Inside c := by
  induction h with
  | empty =>
    intro h states hget
    simp at hget
  | exit _ s before ih =>
    intro h states hget
    rcases get?_recordExit hw hget with hget | ⟨hs, depth, rfl⟩
    · exact ih h states hget
    · exact ⟨s, hs, fun x hx => below_of_remembered hw hx⟩

theorem Histories.Inside.known {c : Chart} (hw : c.WellFormed) {histories : Histories}
    (h : histories.Inside c) : histories.Known c := by
  intro x states hget
  obtain ⟨p, hp, hbelow⟩ := h x states hget
  refine ⟨Chart.lt_size_of_parent hp, fun s hs => ?_⟩
  obtain ⟨q, hq, -⟩ := hw.exists_parent_of_below (hbelow s hs)
  exact Chart.lt_size_of_parent hq

namespace Chart

variable {c : Chart} {histories : Histories}

/-- Where the composite state `s` leads when nothing inside it is asked for. -/
def standardEntry (c : Chart) (s : Nat) : List Nat :=
  if c.kind s = .parallel then c.children s else c.defaultTargets s

/-- The history `h` of `b` leads where `b` leads by default. -/
structure Defers (c : Chart) (histories : Histories) (h b : Nat) : Prop where
  history : c.IsHistory h
  parent : c.parent h = some b
  recalled : c.recalled histories h = c.standardEntry b

/-- What `q` speaks for does not hold `b`. -/
def Avoids (c : Chart) (b q : Nat) : Prop :=
  ¬ c.Within b (c.anchor q)

theorem not_atomic_of_isPseudo {s : Nat} (h : c.isPseudo s = true) : c.isAtomic s = false := by
  by_contra hatomic
  rw [isPseudo_of_isAtomic (by simpa using hatomic)] at h
  cases h

theorem anchor_within_of_below (hw : c.WellFormed) {x a : Nat} (h : c.Below x a) :
    c.Within (c.anchor x) a := by
  cases hx : c.isPseudo x with
  | false =>
    rw [anchor_of_ordinary hx]
    exact h.within
  | true =>
    obtain ⟨p, hp⟩ := hw.pseudo_parent hx
    rw [anchor_of_pseudo hx hp]
    exact (hw.below_iff_within_parent hp).1 h

/-- A node that something lies below speaks for itself. -/
theorem anchor_of_below (hw : c.WellFormed) {x a : Nat} (h : c.Below x a) : c.anchor a = a :=
  anchor_of_ordinary (hw.ordinary_of_below h).2

theorem ne_of_avoids {b q x : Nat} (hq : c.Avoids b q) (hx : c.anchor x = b) : q ≠ x := by
  rintro rfl
  rw [Avoids, hx] at hq
  exact hq (.refl b)

theorem recalled_below (hw : c.WellFormed) (hc : c.Checked) (hh : histories.Inside c) {h p : Nat}
    (hhistory : c.IsHistory h) (hp : c.parent h = some p) :
    ∀ x ∈ c.recalled histories h, c.Below x p := by
  intro x hx
  rcases recall_cases hw histories hhistory with
    ⟨states, hget, hrecall, -⟩ | ⟨t, ht, -, hrecall⟩
  · rw [hrecall] at hx
    obtain ⟨q, hq, hbelow⟩ := hh h states hget
    obtain rfl : q = p := Option.some.inj (hq.symm.trans hp)
    exact hbelow x hx
  · rw [hrecall] at hx
    have hmem : t ∈ (c.node h).transitions := by simp [ht]
    obtain ⟨depth, hk⟩ := hhistory
    cases depth with
    | shallow => exact hw.below_parent (hc.shallow hk hp hmem x hx)
    | deep => exact hc.deep hk hp hmem x hx

theorem standardEntry_below (hw : c.WellFormed) (hc : c.Checked) {b : Nat}
    (hb : c.IsComposite b) : ∀ x ∈ c.standardEntry b, c.Below x b := by
  intro x hx
  unfold standardEntry at hx
  rcases hb with hb | hb
  · rw [if_neg (by simp [hb])] at hx
    exact (hw.defaultTargets_spec hc hb).2 x hx
  · rw [if_pos hb] at hx
    exact hw.below_parent (hw.mem_children.1 hx).1

/-- A node directly below a compound state is orthogonal to nothing inside the state. -/
theorem not_orthogonal_of_compound (hw : c.WellFormed) {b x z : Nat} (hb : c.kind b = .compound)
    (hz : c.parent z = some b) (hx : c.Below x b) : ¬ c.Orthogonal z x := by
  rintro ⟨p, hp, u, v, hu, hv, huv, hzu, hxv⟩
  rcases within_iff.1 hzu with rfl | hbelow
  · obtain rfl : b = p := Option.some.inj (hz.symm.trans hu)
    rw [hb] at hp
    cases hp
  · have hbu : c.Within b u := (hw.below_iff_within_parent hz).1 hbelow
    exact huv (hw.child_unique hu hv (hw.below_of_below_of_within hx hbu).within hxv)

/-- If a state leads to a pseudo-state of its own by default, it leads nowhere else. -/
theorem standardEntry_eq_singleton (hw : c.WellFormed) (hc : c.Checked) {b z : Nat}
    (hb : c.IsComposite b) (hz : z ∈ c.standardEntry b) (hanchor : c.anchor z = b) :
    c.parent z = some b ∧ c.isPseudo z = true ∧ c.standardEntry b = [z] := by
  have hbelow := standardEntry_below hw hc hb
  have hpseudo : c.isPseudo z = true := by
    by_contra hordinary
    rw [anchor_of_ordinary (by simpa using hordinary)] at hanchor
    subst hanchor
    exact hw.not_below_self z (hbelow z hz)
  obtain ⟨p, hp⟩ := hw.pseudo_parent hpseudo
  obtain rfl : p = b := (anchor_of_pseudo hpseudo hp).symm.trans hanchor
  refine ⟨hp, hpseudo, ?_⟩
  rcases hb with hb | hb
  · obtain ⟨i, t, hinitial, hi, hparent, ht⟩ := hw.default_entry hb
    have hentry : c.standardEntry p = (c.transition t).targets := by
      simp [standardEntry, hb, defaultTargets, defaultTransition?, hinitial, ht]
    have horthogonal : (c.standardEntry p).Pairwise c.Orthogonal := by
      rw [hentry]
      exact (hc.entry hi hparent (by simp [ht])).1
    obtain ⟨before, after, hsplit⟩ := List.append_of_mem hz
    rw [hsplit] at horthogonal hbelow ⊢
    obtain ⟨-, hafter, hbefore⟩ := List.pairwise_append.1 horthogonal
    have hnone : ∀ x ∈ before ++ z :: after, ¬ c.Orthogonal z x :=
      fun x hx => not_orthogonal_of_compound hw hb hp (hbelow x hx)
    have hfirst : before = [] := by
      refine List.eq_nil_iff_forall_not_mem.2 fun x hx => ?_
      exact hnone x (by simp [hx]) (hbefore x hx z (by simp)).symm
    have hlast : after = [] := by
      refine List.eq_nil_iff_forall_not_mem.2 fun x hx => ?_
      exact hnone x (by simp [hx]) (List.rel_of_pairwise_cons hafter hx)
    rw [hfirst, hlast]
    rfl
  · rw [standardEntry, if_pos hb] at hz
    rw [(hw.ordinary_of_mem_children hz).2] at hpseudo
    cases hpseudo

end Chart

namespace Expansion

variable {c : Chart} {histories : Histories}

theorem expand_history (queue : List Nat) {h : Nat} (e : Expansion) (hh : c.IsHistory h) :
    (expand c histories queue h e).2 = c.recalled histories h := by
  obtain ⟨depth, hk⟩ := hh
  unfold expand Chart.recalled
  rw [hk]
  dsimp only
  cases (histories.get? h).filter (fun states => !states.isEmpty) with
  | some states => rfl
  | none => cases (c.node h).transitions.head? <;> rfl

/-- Where nothing else was reached and nothing waits, a state is entered by default. -/
theorem expand_composite {b : Nat} {e : Expansion} (hb : c.IsComposite b)
    (htargets : e.targets = ∅) : (expand c histories [] b e).2 = c.standardEntry b := by
  unfold expand Chart.standardEntry Chart.defaultTargets
  rcases hb with hb | hb
  · have hnone : ([] ++ e.targets.members).any (fun a => c.isDescendant a b) = false := by
      rw [htargets]
      rfl
    simp only [hb, hnone, Bool.false_eq_true, if_false, reduceCtorEq]
    cases c.defaultTransition? b <;> rfl
  · simp [hb]

/-- A node leads below the state that it speaks for. -/
theorem next_below (hw : c.WellFormed) (hc : c.Checked) (hh : histories.Inside c)
    (queue : List Nat) (s : Nat) (e : Expansion) :
    ∀ x ∈ (expand c histories queue s e).2, c.Below x (c.anchor s) := by
  cases hk : c.kind s with
  | simple | final =>
    intro x hx
    simp [expand, hk] at hx
  | compound =>
    rw [Chart.anchor_of_ordinary (Chart.IsComposite.ordinary (.inl hk)).2]
    intro x hx
    apply (hw.defaultTargets_spec hc hk).2
    unfold Chart.defaultTargets
    simp only [expand, hk] at hx
    split at hx
    · cases hx
    · cases hdefault : c.defaultTransition? s with
      | none => simp [hdefault] at hx
      | some t => simpa [hdefault] using hx
  | parallel =>
    rw [Chart.anchor_of_ordinary (Chart.IsComposite.ordinary (.inr hk)).2]
    intro x hx
    simp only [expand, hk] at hx
    exact hw.below_parent (hw.mem_children.1 hx).1
  | history depth =>
    have hhistory : c.IsHistory s := ⟨depth, hk⟩
    obtain ⟨p, hp⟩ := hw.pseudo_parent hhistory.isPseudo
    rw [Chart.anchor_of_pseudo hhistory.isPseudo hp, expand_history queue e hhistory]
    exact Chart.recalled_below hw hc hh hhistory hp
  | initial =>
    have hpseudo : c.isPseudo s = true := Chart.isPseudo_of_initial hk
    obtain ⟨p, hp⟩ := hw.pseudo_parent hpseudo
    rw [Chart.anchor_of_pseudo hpseudo hp]
    intro x hx
    simp only [expand, hk] at hx
    cases ht : (c.node s).transitions.head? with
    | none => simp [ht] at hx
    | some t =>
      rw [ht] at hx
      exact (hc.entry hk hp (List.mem_of_head? ht)).2 x hx

/-- A node alone in the queue gives way to what it leads to. -/
theorem Clears.alone {s : Nat} {e m : Expansion} (h : Clears c histories everyNode [s] e m)
    (hnew : s ∉ e.visited) (hs : c.isAtomic s = false) :
    ∃ e₁, e₁.visited = e.visited.insert s ∧ e₁.targets = e.targets ∧
      Clears c histories everyNode
        (expand c histories [] s { e with visited := e.visited.insert s }).2 e₁ m := by
  obtain ⟨e₁, next, hexpand⟩ : ∃ e₁ next, expand c histories [] s
    { e with visited := e.visited.insert s } = (e₁, next) := ⟨_, _, rfl⟩
  have hclears := h.visited_first hnew
  rw [hexpand, List.nil_append] at hclears
  refine ⟨e₁, visited_of_expand hexpand, ?_, by rwa [hexpand]⟩
  refine (targets_of_expand hexpand).resolve_right fun hreached => ?_
  rw [hs] at hreached
  cases hreached.1

section Deferring

variable (hw : c.WellFormed) (hc : c.Checked) (hh : histories.Inside c)

include hw hc hh in
/-- What avoids a state leads to nothing else. -/
theorem sifted_avoids (b : Nat) : Sifted c histories everyNode (c.Avoids b) where
  kept _ := rfl
  next := by
    intro s hs queue e x hx _ hwithin
    have hbelow := next_below hw hc hh queue s e x hx
    exact hs (hw.within_trans hwithin (Chart.anchor_within_of_below hw hbelow))
  apart := by
    intro s x _ hx
    cases hx

theorem idles_everyNode (e : Expansion) : Idles c histories everyNode e := by
  intro x hx
  cases hx

include hw in
/-- If something is reached inside `b`, the missing regions avoid `b`. -/
theorem missing_alike {b : Nat} (residual : StateSet) {e e' : Expansion}
    (halike : Alike (c.Avoids b) e e') (hinside : ∃ f ∈ e.targets, c.Within f b) :
    e'.missing c residual = e.missing c residual ∧
      ∀ x ∈ e.missing c residual, c.Avoids b x := by
  obtain ⟨f, hf, hfb⟩ := hinside
  have havoids : ∀ {x}, c.Ordinary x → ¬ c.Within f x → c.Avoids b x := by
    intro x hx hfree
    rw [Chart.Avoids, Chart.anchor_of_ordinary hx.2]
    exact fun hbx => hfree (hw.within_trans hfb hbx)
  constructor
  · unfold missing
    rw [halike.targets]
    refine List.filter_congr fun x hx => ?_
    obtain ⟨p, -, hchild⟩ := List.mem_flatMap.1 hx
    refine decide_eq_decide.2 (and_congr_right fun hfree => not_congr (halike.visited x ?_))
    refine havoids (hw.ordinary_of_mem_children hchild) fun hfx => hfree ?_
    exact hw.mem_closure.2 ⟨f, List.mem_append_right _ hf, hfx⟩
  · intro x hx
    exact havoids (ordinary_of_mem_missing hw hx) (((mem_missing hw).1 hx).2.1 f (.inr hf))

include hw hc hh in
/-- From there on the rounds of two expansions that are alike reach the same. -/
theorem Rounds.alike {b : Nat} {residual : StateSet} {e e' m m' : Expansion}
    (h : Rounds c histories residual e m) (h' : Rounds c histories residual e' m')
    (halike : Alike (c.Avoids b) e e') (hinside : ∃ f ∈ e.targets, c.Within f b) :
    m'.targets = m.targets := by
  induction h generalizing e' with
  | last hnone =>
    obtain ⟨hmissing, -⟩ := missing_alike hw residual halike hinside
    cases h' with
    | last _ => exact halike.targets
    | more hsome _ _ => exact absurd (hmissing.trans hnone) hsome
  | more hsome hclears _ ih =>
    obtain ⟨hmissing, havoids⟩ := missing_alike hw residual halike hinside
    cases h' with
    | last hnone => exact absurd (hmissing.symm.trans hnone) hsome
    | more _ hclears' rest' =>
      rw [hmissing] at hclears'
      have hafter := hclears.alike (sifted_avoids hw hc hh b) hclears' halike
        (fun q hq _ => havoids q hq) (idles_everyNode _) (idles_everyNode _)
      obtain ⟨f, hf, hfb⟩ := hinside
      exact ih rest' hafter ⟨f, hclears.targets_subset f hf, hfb⟩

/-- The nodes other than `h` and `z`. -/
def without (h z q : Nat) : Bool :=
  decide (q ≠ h ∧ q ≠ z)

theorem without_eq_false {h z q : Nat} : without h z q = false ↔ q = h ∨ q = z := by
  rw [without, decide_eq_false_iff_not, not_and_or, not_ne_iff, not_ne_iff]

/-- The nodes that speak for no state around `b` and are not among `b` and its pseudo-states `h` and
`z`. -/
structure Strays (c : Chart) (b h z q : Nat) : Prop where
  anchor : ¬ c.Below b (c.anchor q)
  ne_state : q ≠ b
  kept : without h z q = true

section Strays

variable {b h z : Nat} (hparent : c.parent h = some b) (hhistory : c.isPseudo h = true)
  (hz : c.parent z = some b) (hpseudo : c.isPseudo z = true)

include hw in
theorem strays_of_below {q : Nat} (hq : c.Below q b) (hkept : without h z q = true) :
    Strays c b h z q where
  anchor hb := hw.not_within_of_below hb (Chart.anchor_within_of_below hw hq)
  ne_state := by
    rintro rfl
    exact hw.not_below_self q hq
  kept := hkept

include hw hparent hhistory hz hpseudo in
theorem strays_of_avoids {q : Nat} (hq : c.Avoids b q) : Strays c b h z q where
  anchor hb := hq hb.within
  ne_state := Chart.ne_of_avoids hq (Chart.anchor_of_below hw (hw.below_parent hparent))
  kept := decide_eq_true ⟨Chart.ne_of_avoids hq (Chart.anchor_of_pseudo hhistory hparent),
    Chart.ne_of_avoids hq (Chart.anchor_of_pseudo hpseudo hz)⟩

include hw hc hh hparent hz in
theorem sifted_strays : Sifted c histories (without h z) (Strays c b h z) where
  kept hs := hs.kept
  next := by
    intro s hs queue e x hx hkept
    have hbelow := next_below hw hc hh queue s e x hx
    refine ⟨fun hb => hs.anchor ?_, ?_, hkept⟩
    · exact hw.below_of_below_of_within hb (Chart.anchor_within_of_below hw hbelow)
    · rintro rfl
      exact hs.anchor hbelow
  apart := by
    intro s x hs hx hbelow
    have hxb : c.parent x = some b := by
      rcases without_eq_false.1 hx with rfl | rfl
      · exact hparent
      · exact hz
    rcases Chart.within_iff.1 ((hw.below_iff_within_parent hxb).1 hbelow) with rfl | hb
    · exact hs.ne_state rfl
    · have hanchor : c.anchor s = s := Chart.anchor_of_below hw hbelow
      exact hs.anchor (hanchor.symm ▸ hb)

end Strays

include hw hc hh in
/-- If a state leads to a pseudo-state `z` of its own by default, the expansion of `z` reaches the
same whether the state or a history that defers to it was visited before. -/
theorem Clears.alike_of_singleton {h b z : Nat} (hd : c.Defers histories h b) (hzh : z ≠ h)
    (hz : c.parent z = some b) (hpseudo : c.isPseudo z = true) (hsingle : c.standardEntry b = [z])
    {e e' m m' : Expansion} (hvisited : e.visited = StateSet.insert ∅ b)
    (hvisited' : e'.visited = StateSet.insert ∅ h) (htargets : e'.targets = e.targets)
    (hclears : Clears c histories everyNode [z] e m)
    (hclears' : Clears c histories everyNode [z] e' m') : Alike (c.Avoids b) m m' := by
  have hzb : z ≠ b := by
    rintro rfl
    exact hw.not_below_self z (hw.below_parent hz)
  have hatomic : c.isAtomic z = false := Chart.not_atomic_of_isPseudo hpseudo
  -- Both visit `z`, after which the same waits.
  obtain ⟨k, hk, hkt, hrest⟩ := hclears.alone (by simp [hvisited, hzb]) hatomic
  obtain ⟨k', hk', hkt', hrest'⟩ := hclears'.alone (by simp [hvisited', hzh]) hatomic
  obtain ⟨hnext, -⟩ := @expand_congr c histories [] [] z
    { e with visited := e.visited.insert z } { e' with visited := e'.visited.insert z } htargets
    (fun _ _ => .rfl)
  rw [hnext] at hrest'
  have hbelow := next_below hw hc hh [] z { e with visited := e.visited.insert z }
  rw [Chart.anchor_of_pseudo hpseudo hz] at hbelow
  have halike : Alike (Strays c b h z) k k' := by
    refine ⟨by rw [hkt, hkt', htargets], fun q hq => ?_⟩
    have hqh : q ≠ h := (of_decide_eq_true hq.kept).1
    simp [hk, hk', hvisited, hvisited', hq.ne_state, hqh]
  have hidle : Idles c histories (without h z) k := by
    intro x hx
    rcases without_eq_false.1 hx with rfl | rfl
    · refine .inr ⟨Chart.not_atomic_of_isPseudo hd.history.isPseudo, fun queue e y hy => ?_⟩
      rw [expand_history queue e hd.history, hd.recalled, hsingle, List.mem_singleton] at hy
      exact without_eq_false.2 (.inr hy)
    · exact .inl (by simp [hk])
  have hidle' : Idles c histories (without h z) k' := by
    intro x hx
    rcases without_eq_false.1 hx with rfl | rfl
    · exact .inl (by simp [hk', hvisited'])
    · exact .inl (by simp [hk'])
  have hafter := hrest.alike (sifted_strays hw hc hh hd.parent hz) hrest' halike
    (fun q hq hkept => strays_of_below hw (hbelow q hq) hkept) hidle hidle'
  exact hafter.mono fun q hq => strays_of_avoids hw hd.parent hd.history.isPseudo hz hpseudo hq

/-- A history that leads back to itself reaches nothing. -/
theorem Clears.reached_of_self {h : Nat} (hhistory : c.IsHistory h)
    (hself : c.recalled histories h = [h]) {e m : Expansion}
    (hclears : Clears c histories everyNode [h] e m) : ∀ f ∈ m.targets, f ∈ e.targets := by
  have hnext : ∀ {s}, s = h → ∀ queue e, ∀ x ∈ (expand c histories queue s e).2, x = h := by
    rintro s rfl queue e x hx
    rw [expand_history queue e hhistory, hself, List.mem_singleton] at hx
    exact hx
  intro f hf
  refine (hclears.reached hnext (fun q hq => List.mem_singleton.1 hq) f hf).resolve_right ?_
  rintro ⟨hatomic, rfl⟩
  rw [Chart.not_atomic_of_isPseudo hhistory.isPseudo] at hatomic
  cases hatomic

include hw hc hh in
/-- From inside `b` nothing else is reached. -/
theorem Clears.reached_inside {b : Nat} {queue : List Nat} {e m : Expansion}
    (hclears : Clears c histories everyNode queue e m) (hqueue : ∀ q ∈ queue, c.Below q b) :
    ∀ f ∈ m.targets, f ∈ e.targets ∨ c.Below f b := by
  have hnext : ∀ {s}, c.Below s b →
      ∀ queue e, ∀ x ∈ (expand c histories queue s e).2, c.Below x b := by
    intro s hs queue e x hx
    exact hw.below_of_below_of_within (next_below hw hc hh queue s e x hx)
      (Chart.anchor_within_of_below hw hs)
  exact fun f hf => (hclears.reached hnext hqueue f hf).imp_right And.right

include hw hc hh in
/-- After the first round the expansions of a state and of a history that defers to it are alike
away from the state, if anything was reached; and that lies inside the state. -/
theorem Clears.alike_of_defers {h b : Nat} (hd : c.Defers histories h b) {m m' : Expansion}
    (hclears : Clears c histories everyNode [b] .empty m)
    (hclears' : Clears c histories everyNode [h] .empty m') (hreached : m.targets ≠ ∅) :
    Alike (c.Avoids b) m m' ∧ ∃ f ∈ m.targets, c.Within f b := by
  have hb : c.IsComposite b := hw.parent_composite hd.parent
  have hhistory : c.isPseudo h = true := hd.history.isPseudo
  have hbelow := Chart.standardEntry_below hw hc hb
  -- After the first step the same waits.
  obtain ⟨e, he, het, hrest⟩ := hclears.alone (StateSet.not_mem_empty b) hb.not_atomic
  obtain ⟨e', he', het', hrest'⟩ :=
    hclears'.alone (StateSet.not_mem_empty h) (Chart.not_atomic_of_isPseudo hhistory)
  rw [expand_composite hb rfl] at hrest
  rw [expand_history _ _ hd.history, hd.recalled] at hrest'
  obtain ⟨f, hf⟩ : ∃ f, f ∈ m.targets := by
    by_contra hnone
    exact hreached (StateSet.ext fun x => by simpa using fun hx => hnone ⟨x, hx⟩)
  have hnotyet : f ∉ e.targets := by
    rw [het]
    exact StateSet.not_mem_empty f
  have hinside := (hrest.reached_inside hw hc hh hbelow f hf).resolve_left hnotyet
  refine ⟨?_, f, hf, hinside.within⟩
  by_cases hz : ∃ z ∈ c.standardEntry b, c.anchor z = b
  · obtain ⟨z, hmem, hanchor⟩ := hz
    obtain ⟨hz, hpseudo, hsingle⟩ := Chart.standardEntry_eq_singleton hw hc hb hmem hanchor
    have hzh : z ≠ h := by
      rintro rfl
      rw [hsingle] at hrest
      exact hnotyet (hrest.reached_of_self hd.history (hd.recalled.trans hsingle) f hf)
    rw [hsingle] at hrest hrest'
    exact Clears.alike_of_singleton hw hc hh hd hzh hz hpseudo hsingle he he'
      (het'.trans het.symm) hrest hrest'
  · have havoids : ∀ q ∈ c.standardEntry b, c.Avoids b q := by
      intro q hq hwithin
      have hanchor := Chart.anchor_within_of_below hw (hbelow q hq)
      exact hz ⟨q, hq, hw.within_antisymm hanchor hwithin⟩
    have halike : Alike (c.Avoids b) e e' := by
      refine ⟨het'.trans het.symm, fun q hq => ?_⟩
      have hqb : q ≠ b := Chart.ne_of_avoids hq (Chart.anchor_of_ordinary hb.ordinary.2)
      have hqh : q ≠ h := Chart.ne_of_avoids hq (Chart.anchor_of_pseudo hhistory hd.parent)
      simp [he, he', hqb, hqh, Expansion.empty]
    exact hrest.alike (sifted_avoids hw hc hh b) hrest' halike (fun q hq _ => havoids q hq)
      (idles_everyNode e) (idles_everyNode e')

include hw hc hh in
/-- A history that defers to its state leads where the state leads, if that is anywhere at all. -/
theorem targets_of_defers {h b : Nat} (hd : c.Defers histories h b) (residual : StateSet)
    (hsome : (c.expand histories [b] ∅).targets ≠ ∅) :
    (c.expand histories [h] residual).targets = (c.expand histories [b] residual).targets := by
  have hb : b < c.nodes.size := hw.parent_lt_size hd.parent
  have hlt : h < c.nodes.size := Chart.lt_size_of_parent hd.parent
  have hknown := hh.known hw
  obtain ⟨m, hclears, hrounds⟩ := rounds_expand hw hknown (List.forall_mem_singleton.2 hb) residual
  obtain ⟨m', hclears', hrounds'⟩ :=
    rounds_expand hw hknown (List.forall_mem_singleton.2 hlt) residual
  have hreached : m.targets ≠ ∅ := by
    intro hnone
    -- With nothing reached and nothing staying, no region is missing.
    obtain ⟨k, hk, halone⟩ := rounds_expand hw hknown (List.forall_mem_singleton.2 hb) ∅
    obtain rfl := hclears.unique hk
    have hmissing : k.missing c ∅ = [] := by
      unfold missing
      rw [hnone]
      rfl
    cases halone with
    | last _ => exact hsome hnone
    | more hmore _ _ => exact hmore hmissing
  obtain ⟨halike, hinside⟩ := Clears.alike_of_defers hw hc hh hd hclears hclears' hreached
  exact Rounds.alike hw hc hh hrounds hrounds' halike hinside

end Deferring

end Expansion

/-- No default is written for the history, or one without targets. -/
def HistoryOutline.HasNoDefault (h : HistoryOutline) : Prop :=
  ∀ d ∈ h.default, d.targets = []

theorem DefaultOutline.targetsOr_eq {default : Option DefaultOutline} (targets : List Ref)
    (h : ∀ d ∈ default, d.targets = []) : DefaultOutline.targetsOr default targets = targets := by
  unfold DefaultOutline.targetsOr
  cases default with
  | none => rfl
  | some d => simp [h d rfl]

namespace Outline

variable {o : Outline} {x : Site}

/-- The defaults of a site are where its state leads by default. -/
theorem standardEntry_number (hx : x ∈ o.sites) (hb : o.chart.IsComposite x.number) :
    o.chart.standardEntry x.number = o.aims x.defaults := by
  have hnode := chart_number hx
  have hkind : o.chart.kind x.number = x.kind := by
    rw [Chart.kind, hnode]
    rfl
  unfold Chart.standardEntry Site.defaults
  rcases hb with hb | hb
  · have hcompound : x.kind = .compound := hkind.symm.trans hb
    have hdefault : o.chart.defaultTransition? x.number = some (firstArrow o.layout x.entry) := by
      rw [Chart.defaultTransition?, hnode]
      simp [Site.node, hcompound, chart_entry hx hcompound]
    have htargets := targets_firstArrow (layout_entry hx hcompound)
    rw [if_neg (by simp [hb]), Chart.defaultTargets, hdefault]
    exact htargets
  · have hparallel : x.kind = .parallel := hkind.symm.trans hb
    rw [if_pos hb, if_neg (by simp [hparallel]), Chart.children, hnode, aims, List.filterMap_map]
    exact (List.filterMap_some).symm

/-- A history without a default that remembers nothing leads where its state leads by default. -/
theorem defers (hw : o.chart.WellFormed) (hx : x ∈ o.sites) {j : Nat} {hist : HistoryOutline}
    (hj : x.head.histories[j]? = some hist) (hdefault : hist.HasNoDefault) {histories : Histories}
    (hnone : (histories.get? (x.firstHistory + j)).filter (fun states => !states.isEmpty) = none) :
    o.chart.Defers histories (x.firstHistory + j) x.number := by
  have hnode := chart_history hx hj
  have hparent : o.chart.parent (x.firstHistory + j) = some x.number := by
    rw [Chart.parent, hnode]
    rfl
  refine ⟨⟨hist.depth, ?_⟩, hparent, ?_⟩
  · rw [Chart.kind, hnode]
    rfl
  · have htargets := targets_firstArrow (layout_history hx hj)
    rw [standardEntry_number hx (hw.parent_composite hparent), Chart.recalled, hnone, hnode]
    dsimp only [List.head?_cons]
    rw [htargets, Site.historyArrow, Arrow.default, DefaultOutline.targetsOr_eq _ hdefault]

end Outline

/-- A history that is written without a default and remembers nothing leads to the same states as
its own state, whatever stays active and whatever other histories have recorded, if the state leads
to any when it is entered alone. -/
theorem Chart.empty_history_like_state {o : Outline} {c : Chart} (hbuild : o.build = .ok c)
    {x : Site} (hx : x ∈ o.sites) {j : Nat} {hist : HistoryOutline}
    (hj : x.head.histories[j]? = some hist) (hdefault : hist.HasNoDefault) {histories : Histories}
    (hwritten : histories.Written c)
    (hnone : (histories.get? (x.firstHistory + j)).filter (fun states => !states.isEmpty) = none)
    (residual : StateSet) (hsome : (c.expand histories [x.number] ∅).targets ≠ ∅) :
    (c.expand histories [x.firstHistory + j] residual).targets =
      (c.expand histories [x.number] residual).targets := by
  obtain ⟨hw, hc⟩ := Outline.wellFormed_of_build hbuild
  obtain ⟨-, rfl, -⟩ := Outline.resolved_of_build hbuild
  exact Expansion.targets_of_defers hw hc (hwritten.inside hw)
    (Outline.defers hw hx hj hdefault hnone) residual hsome

/-- A house with a room that is entered by its history `K`, and by way of that as the lamp was left.
The history `H` of the room has no default. -/
def Outline.house : Outline where
  name := none
  datamodel := none
  initial := []
  states := [
    .mk (.named "house" .parallel [] []) [
      .mk (.named "floor" .plain [] []) [
        .mk (.named "hall" .plain [] [.on "enter" "H"]) [],
        .mk { StateHead.named "room" .plain
            [⟨some "H", .shallow, none⟩, ⟨some "K", .deep, some ⟨["M"], []⟩⟩] [] with
          initial := some ⟨["K"], []⟩ } [
          .mk (.named "door" .plain [] []) [],
          .mk (.named "lamp" .plain [⟨some "M", .shallow, none⟩] []) [
            .mk (.named "dark" .plain [] []) [],
            .mk (.named "lit" .plain [] []) []]]],
      .mk (.named "heating" .plain [] []) [.mk (.named "idle" .plain [] []) []]]]
  data := []

theorem Outline.build_house : Outline.house.build = .ok Outline.house.chart :=
  build_eq_ok rfl (by decide +kernel) (by decide +kernel)

/-- What the histories of the house remember when the lamp was left lit. -/
def Histories.lit : Histories :=
  (∅ : Histories).recordExit Outline.house.chart 5
    ⟨StateSet.ofList [7, 15], StateSet.ofList [0, 1, 3, 5, 7, 14, 15], none, 0⟩

/-- The history with the number 11 leads to the lit lamp, as the room does. -/
theorem Chart.empty_history_like_state_house :
    (Outline.house.chart.expand .lit [11] (StateSet.ofList [15])).targets =
        (Outline.house.chart.expand .lit [3] (StateSet.ofList [15])).targets ∧
      (Outline.house.chart.expand .lit [11] (StateSet.ofList [15])).targets =
        StateSet.ofList [7] := by
  obtain ⟨x, hx, hnumber, hfirst, hist, hj, hdefault⟩ : ∃ x ∈ Outline.house.sites,
      x.number = 3 ∧ x.firstHistory = 11 ∧
        ∃ hist, x.head.histories[0]? = some hist ∧ hist.HasNoDefault :=
    ⟨_, List.mem_of_getElem? (i := 3) rfl, rfl, rfl, _, rfl, by rintro d ⟨⟩⟩
  have hwritten : Histories.lit.Written Outline.house.chart := .exit .empty 5 _
  have hlike := empty_history_like_state Outline.build_house hx hj hdefault hwritten
    (by rw [hfirst]; decide +kernel) (StateSet.ofList [15]) (by rw [hnumber]; decide +kernel)
  rw [hnumber, hfirst] at hlike
  exact ⟨hlike, by decide +kernel⟩

/-- A state `B` that is entered by its own history, which leads back to itself. -/
def Outline.circle : Outline where
  name := none
  datamodel := none
  initial := ["Y"]
  states := [
    .mk (.named "P" .parallel [] []) [
      .mk { StateHead.named "R1" .plain [⟨some "HR", .deep, some ⟨["B", "S"], []⟩⟩] [] with
          initial := some ⟨["HR"], []⟩ } [
        .mk (.named "Y" .plain [] [.on "h" "H", .on "b" "B"]) [],
        .mk { StateHead.named "S" .plain [] [] with initial := some ⟨["S2"], []⟩ } [
          .mk { StateHead.named "B" .plain [⟨some "H", .shallow, none⟩] [] with
              initial := some ⟨["H"], []⟩ } [
            .mk (.named "B1" .plain [] []) []],
          .mk (.named "S2" .plain [] []) []]],
      .mk (.named "R2" .plain [] []) [.mk (.named "x" .plain [] []) []]]]
  data := []

theorem Outline.build_circle : Outline.circle.build = .ok Outline.circle.chart :=
  build_eq_ok rfl (by decide +kernel) (by decide +kernel)

/-- In a circle the state leads nowhere when it is entered alone. Then it can lead elsewhere than
its history: with the state with the number 13 staying, 4 leads to a state and its history 7 to
none. -/
theorem Chart.exists_empty_history_unlike_state : ¬ ∀ (o : Outline) (c : Chart), o.build = .ok c →
    ∀ x ∈ o.sites, ∀ (j : Nat) (hist : HistoryOutline), x.head.histories[j]? = some hist →
      hist.HasNoDefault → ∀ histories : Histories, histories.Written c →
      (histories.get? (x.firstHistory + j)).filter (fun states => !states.isEmpty) = none →
      ∀ residual, (c.expand histories [x.firstHistory + j] residual).targets =
        (c.expand histories [x.number] residual).targets := by
  intro h
  obtain ⟨x, hx, hnumber, hfirst, hist, hj, hdefault⟩ : ∃ x ∈ Outline.circle.sites,
      x.number = 4 ∧ x.firstHistory = 7 ∧
        ∃ hist, x.head.histories[0]? = some hist ∧ hist.HasNoDefault :=
    ⟨_, List.mem_of_getElem? (i := 4) rfl, rfl, rfl, _, rfl, by rintro d ⟨⟩⟩
  have hlike := h .circle Outline.circle.chart Outline.build_circle x hx 0 hist hj hdefault ∅ .empty
    (by rfl) (StateSet.ofList [13])
  rw [hnumber, hfirst] at hlike
  exact absurd hlike (by decide +kernel)

end Statechart
