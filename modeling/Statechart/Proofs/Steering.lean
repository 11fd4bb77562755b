import Mathlib.Data.List.TakeWhile
import Statechart.Proofs.Planning

/-!
Where an expansion is steered to. What is active inside a state is determined from the outside in:
a compound state asks for what is asked for around it as far as that lies inside it, and if nothing
does, for its default entry. An expansion heeds what is asked for: as soon as something below a
state waits or was expanded, so does all that is asked for inside the state. This holds for the
domain of each transition by itself, whatever else is expanded beside it.
-/

namespace Statechart

namespace Chart

/-- The targets of the default entry of `s`. -/
def defaultTargets (c : Chart) (s : Nat) : List Nat :=
  match c.defaultTransition? s with
  | some t => (c.transition t).targets
  | none => []

/-- What is asked for inside the innermost state of a branch when `aims` are asked for in all: what
is asked for around the state, or else its default entry. -/
def Asked (c : Chart) (aims : List Nat) : List Nat → Nat → Prop
  | [], y => y ∈ aims
  | s :: above, y => c.Below y s ∧ (c.Asked aims above y ∨
      c.kind s = .compound ∧ (∀ z, c.Asked aims above z → ¬ c.Below z s) ∧
        y ∈ c.defaultTargets s)

variable {c : Chart} {aims : List Nat}

theorem Asked.below {s y : Nat} (h : c.Asked aims (c.branch s) y) : c.Below y s :=
  h.1

theorem asked_branch {s y : Nat} : c.Asked aims (c.branch s) y ↔
    c.Below y s ∧ (c.Asked aims (c.ancestors s) y ∨ c.kind s = .compound ∧
      (∀ z, c.Asked aims (c.ancestors s) z → ¬ c.Below z s) ∧ y ∈ c.defaultTargets s) :=
  Iff.rfl

/-- A state inside which something is asked for around it asks for no more than that. -/
theorem asked_of_around {s z : Nat} (hz : c.Asked aims (c.ancestors s) z) (hzs : c.Below z s)
    {y : Nat} : c.Asked aims (c.branch s) y ↔ c.Below y s ∧ c.Asked aims (c.ancestors s) y := by
  rw [asked_branch]
  refine and_congr_right fun _ => or_iff_left ?_
  rintro ⟨-, hnone, -⟩
  exact hnone z hz hzs

namespace WellFormed

variable (hw : c.WellFormed)

include hw

theorem defaultTargets_spec (hc : c.Checked) {s : Nat} (hs : c.kind s = .compound) :
    c.defaultTargets s ≠ [] ∧ ∀ y ∈ c.defaultTargets s, c.Below y s := by
  obtain ⟨i, t, hinitial, hi, hp, ht⟩ := hw.default_entry hs
  obtain ⟨t', ht', hne⟩ := hw.pseudo_transition (isPseudo_of_initial hi)
  obtain rfl : t = t' := by simpa [ht] using ht'
  have hdefault : c.defaultTargets s = (c.transition t).targets := by
    simp [defaultTargets, defaultTransition?, hinitial, ht]
  rw [hdefault]
  exact ⟨hne, (hc.entry hi hp (by simp [ht])).2⟩

/-- Around a state, the state above it asks. -/
theorem asked_around {s p : Nat} (hp : c.parent s = some p) {y : Nat} :
    c.Asked aims (c.ancestors s) y ↔ c.Asked aims (c.branch p) y := by
  rw [hw.ancestors_of_parent hp]
  rfl

/-- A compound state asks for something. -/
theorem exists_asked (hc : c.Checked) {s : Nat} (hs : c.kind s = .compound) :
    ∃ y, c.Asked aims (c.branch s) y := by
  obtain ⟨hne, hbelow⟩ := hw.defaultTargets_spec hc hs
  by_cases hnone : ∀ z, c.Asked aims (c.ancestors s) z → ¬ c.Below z s
  · obtain ⟨y, hy⟩ := List.exists_mem_of_ne_nil _ hne
    exact ⟨y, hbelow y hy, .inr ⟨hs, hnone, hy⟩⟩
  · simp only [not_forall, Classical.not_not] at hnone
    obtain ⟨z, hz, hzs⟩ := hnone
    exact ⟨z, hzs, .inl hz⟩

/-- What is asked for in all is asked for around every state that it lies below. -/
theorem asked_ancestors_of_aim {s y : Nat} (hy : y ∈ aims) (hys : c.Below y s) :
    c.Asked aims (c.ancestors s) y := by
  induction s using Nat.strong_induction_on with
  | _ s ih =>
    cases hp : c.parent s with
    | none =>
      rw [ancestors_of_top hp]
      exact hy
    | some p =>
      have hyp := hw.below_of_below_of_within hys (hw.below_parent hp).within
      rw [hw.asked_around hp]
      exact ⟨hyp, .inl (ih p (hw.parent_lt hp) hyp)⟩

/-- Where every state around holds an aim, nothing but the aims is asked for. -/
theorem asked_iff_aim {s : Nat} (haimed : ∀ a, c.Within s a → ∃ z ∈ aims, c.Below z a) {y : Nat} :
    c.Asked aims (c.branch s) y ↔ y ∈ aims ∧ c.Below y s := by
  induction s using Nat.strong_induction_on with
  | _ s ih =>
    obtain ⟨z, hz, hzs⟩ := haimed s (.refl s)
    rw [asked_of_around (hw.asked_ancestors_of_aim hz hzs) hzs]
    cases hp : c.parent s with
    | none =>
      rw [ancestors_of_top hp]
      exact and_comm
    | some p =>
      have hup := hw.below_parent hp
      rw [hw.asked_around hp,
        ih p (hw.parent_lt hp) (fun a hpa => haimed a (hw.within_trans hup.within hpa))]
      constructor
      · rintro ⟨hys, hy, -⟩
        exact ⟨hy, hys⟩
      · rintro ⟨hy, hys⟩
        exact ⟨hys, hy, hw.below_of_below_of_within hys hup.within⟩

/-- Down to something that `q` asks for, nothing else is asked for than what `q` asks for. -/
theorem asked_of_outer {p q x : Nat} (hpq : c.Within p q) (hx : c.Asked aims (c.branch q) x)
    (hxp : c.Below x p) {y : Nat} :
    c.Asked aims (c.branch p) y ↔ c.Below y p ∧ c.Asked aims (c.branch q) y := by
  induction p using Nat.strong_induction_on generalizing y with
  | _ p ih =>
    rcases within_iff.1 hpq with rfl | hbelow
    · exact (and_iff_right_of_imp Asked.below).symm
    · obtain ⟨r, hr, hrq⟩ := hw.exists_parent_of_below hbelow
      have hup := (hw.below_parent hr).within
      have hstep : ∀ {z}, c.Below z p →
          (c.Asked aims (c.ancestors p) z ↔ c.Asked aims (c.branch q) z) := by
        intro z hz
        rw [hw.asked_around hr,
          ih r (hw.parent_lt hr) hrq (hw.below_of_below_of_within hxp hup)]
        exact and_iff_right (hw.below_of_below_of_within hz hup)
      rw [asked_of_around ((hstep hxp).2 hx) hxp]
      exact and_congr_right hstep

end WellFormed

end Chart

namespace Expansion

open Chart

variable {c : Chart} {histories : Histories} {residual : StateSet} {aims seeds : List Nat}
  {d : Option Nat}

/-- Below the domain `d` nothing stays, and `seeds` lead there as the states `aims` below it say. -/
structure Aimed (c : Chart) (residual : StateSet) (aims seeds : List Nat) (d : Option Nat) :
    Prop where
  nonempty : aims ≠ []
  inside : ∀ y ∈ aims, c.InDomain y d
  seeded : ∀ y ∈ aims, y ∈ seeds
  led : ∀ {x s}, x ∈ seeds → c.kind s = .compound → c.InDomain s d → c.Below x s →
    ∃ y ∈ aims, c.Below y s
  stays : ∀ r ∈ residual, ¬ c.InDomain r d

/-- Only states wait or were expanded, and below the domain `d` all that is asked for is among
them. -/
structure Heeded (c : Chart) (aims : List Nat) (d : Option Nat) (queue : List Nat)
    (e : Expansion) : Prop where
  ordinary : ∀ q, q ∈ queue ∨ q ∈ e.visited → c.Ordinary q
  reached : ∀ f ∈ e.targets, f ∈ e.visited
  asked : ∀ {p x y}, c.InDomain p d → x ∈ queue ∨ x ∈ e.visited → c.Below x p →
    c.Asked aims (c.branch p) y → y ∈ queue ∨ y ∈ e.visited

/-- A state around one below the domain lies below the domain itself, or holds an aim. -/
theorem Aimed.outward (hw : c.WellFormed) (h : Aimed c residual aims seeds d) {s a : Nat}
    (hs : c.InDomain s d) (hsa : c.Below s a) : c.InDomain a d ∨ ∃ y ∈ aims, c.Below y a := by
  cases d with
  | none => exact .inl (inDomain_none a)
  | some b =>
    rw [inDomain_some] at hs ⊢
    rcases hw.within_or_below hs.within hsa.within with hba | hab
    · obtain ⟨y, hy⟩ := List.exists_mem_of_ne_nil _ h.nonempty
      exact .inr ⟨y, hy, hw.below_of_below_of_within (inDomain_some.1 (h.inside y hy)) hba⟩
    · exact .inl hab

/-- Around a state below the domain, either a state below the domain asks or the aims are all. -/
theorem Aimed.around (hw : c.WellFormed) (h : Aimed c residual aims seeds d) {s y : Nat}
    (hs : c.InDomain s d) (hy : c.Asked aims (c.ancestors s) y) :
    y ∈ aims ∨ ∃ p, c.parent s = some p ∧ c.InDomain p d ∧ c.Asked aims (c.branch p) y := by
  cases hp : c.parent s with
  | none =>
    rw [WellFormed.ancestors_of_top hp] at hy
    exact .inl hy
  | some p =>
    rw [hw.asked_around hp] at hy
    by_cases hpd : c.InDomain p d
    · exact .inr ⟨p, rfl, hpd, hy⟩
    · -- No state around the domain lies below it, so that every one holds an aim.
      refine .inl ((hw.asked_iff_aim ?_).1 hy).1
      intro a hpa
      have hsa := (hw.below_iff_within_parent hp).2 hpa
      refine (h.outward hw hs hsa).resolve_left ?_
      exact fun had => hpd (hw.inDomain_of_within hpa had)

/-- At the start nothing but the aims is asked for around a seed. -/
theorem Aimed.asked_start (hw : c.WellFormed) (h : Aimed c residual aims seeds d) {p x y : Nat}
    (hx : x ∈ seeds) (hp : c.InDomain p d) (hxp : c.Below x p)
    (hy : c.Asked aims (c.branch p) y) : y ∈ aims := by
  induction p using Nat.strong_induction_on with
  | _ p ih =>
    obtain ⟨-, haround | ⟨hk, hnone, -⟩⟩ := asked_branch.1 hy
    · rcases h.around hw hp haround with haim | ⟨r, hr, hrd, hyr⟩
      · exact haim
      · exact ih r (hw.parent_lt hr) hrd
          (hw.below_of_below_of_within hxp (hw.below_parent hr).within) hyr
    · obtain ⟨z, hz, hzp⟩ := h.led hx hk hp hxp
      exact absurd hzp (hnone z (hw.asked_ancestors_of_aim hz hzp))

theorem Aimed.heeded (hw : c.WellFormed) (h : Aimed c residual aims seeds d)
    (hordinary : ∀ x ∈ seeds, c.Ordinary x) : Heeded c aims d seeds .empty where
  ordinary q hq := hordinary q (hq.resolve_right (StateSet.not_mem_empty q))
  reached f hf := absurd hf (StateSet.not_mem_empty f)
  asked hp hx hxp hy :=
    .inl (h.seeded _ (h.asked_start hw (hx.resolve_right (StateSet.not_mem_empty _)) hp hxp hy))

section Steps

variable {queue next : List Nat} {q : Nat} {e e' : Expansion}

/-- What is asked for around a state that waits or was expanded waits or was expanded. -/
theorem Heeded.around (hw : c.WellFormed) (ha : Aimed c residual aims seeds d)
    (hs : Supported c seeds queue e) (h : Heeded c aims d queue e) {x y : Nat}
    (hx : x ∈ queue ∨ x ∈ e.visited) (hxd : c.InDomain x d)
    (hy : c.Asked aims (c.ancestors x) y) : y ∈ queue ∨ y ∈ e.visited := by
  rcases ha.around hw hxd hy with haim | ⟨p, hp, hpd, hyp⟩
  · exact (hs.kept y (ha.seeded y haim)).symm
  · exact h.asked hpd hx (hw.below_parent hp) hyp

theorem Heeded.dropWhile (h : Heeded c aims d queue e) :
    Heeded c aims d (queue.dropWhile (fun s => decide (s ∈ e.visited))) e := by
  have hkeep : ∀ {y}, y ∈ queue ∨ y ∈ e.visited →
      y ∈ queue.dropWhile (fun s => decide (s ∈ e.visited)) ∨ y ∈ e.visited := by
    rintro y (hy | hy)
    · rw [← List.takeWhile_append_dropWhile (p := fun s => decide (s ∈ e.visited)) (l := queue),
        List.mem_append] at hy
      rcases hy with hy | hy
      · have hmarked := List.mem_takeWhile_imp hy
        rw [decide_eq_true_eq] at hmarked
        exact .inr hmarked
      · exact .inl hy
    · exact .inr hy
  have hsub := List.dropWhile_sublist (l := queue) (fun s => decide (s ∈ e.visited))
  refine ⟨fun q hq => h.ordinary q (hq.imp_left (fun hq => hsub.subset hq)), h.reached, ?_⟩
  intro p x y hp hx hxp hy
  exact hkeep (h.asked hp (hx.imp_left (fun hx => hsub.subset hx)) hxp hy)

/-- A region that is missing below the domain lies beside something that was expanded. -/
theorem Heeded.missing (hw : c.WellFormed) (ha : Aimed c residual aims seeds d)
    (hs : Supported c seeds [] e) (h : Heeded c aims d [] e) :
    Heeded c aims d (e.missing c residual) e where
  ordinary q hq :=
    hq.elim (fun hq => ordinary_of_mem_missing hw hq) (fun hq => h.ordinary q (.inr hq))
  reached := h.reached
  asked := by
    intro p x y hp hx hxp hy
    refine .inr ((?_ : y ∈ [] ∨ y ∈ e.visited).resolve_left List.not_mem_nil)
    rcases hx with hx | hx
    · obtain ⟨⟨k, f, hf, hfk, hk, hxk⟩, -⟩ := (mem_missing hw).1 hx
      have hkp := (hw.below_iff_within_parent (hw.mem_children.1 hxk).1).1 hxp
      have hfp := hw.within_trans hfk hkp
      have hft : f ∈ e.targets :=
        hf.resolve_left fun hf => ha.stays f hf (hw.inDomain_of_within hfp hp)
      have hbelow : c.Below f k := by
        apply (within_iff.1 hfk).resolve_left
        rintro rfl
        exact hs.atomic.not_composite hft (.inr hk)
      exact h.asked hp (.inr (h.reached f hft)) (hw.below_of_below_of_within hbelow hkp) hy
    · exact h.asked hp (.inr hx) hxp hy

/-- A compound state that is entered by default holds nothing that waits or was expanded. -/
theorem Supported.not_below_of_free (hw : c.WellFormed) (h : Supported c seeds (q :: queue) e)
    (hfree : ∀ a, a ∈ queue ∨ a ∈ e.targets → ¬ c.Below a q) {z : Nat}
    (hz : z ∈ q :: queue ∨ z ∈ e.visited) : ¬ c.Below z q := by
  intro hzq
  have hwaits : ∀ {a}, a ∈ q :: queue ∨ a ∈ e.targets → ¬ c.Below a q := by
    rintro a (ha | ha)
    · rcases List.mem_cons.1 ha with rfl | ha
      · exact hw.not_below_self a
      · exact hfree a (.inl ha)
    · exact hfree a (.inr ha)
  rcases hz with hz | hz
  · exact hwaits (.inl hz) hzq
  · rcases h.carried z hz with ht | ⟨a, ha, haz⟩
    · exact hwaits (.inr ht) hzq
    · exact hwaits ha
        (hw.below_of_below_of_within haz (hw.anchor_within_of_below hzq))

/-- The state that is expanded asks for what it leads to. -/
theorem Heeded.asked_next (hw : c.WellFormed) (hc : c.Checked) (ha : Aimed c residual aims seeds d)
    (hs : Supported c seeds (q :: queue) e) (h : Heeded c aims d (q :: queue) e)
    (hexpands : Expands c histories queue q { e with visited := e.visited.insert q } e' next)
    {p x y : Nat} (hp : c.InDomain p d) (hx : x ∈ next) (hxp : c.Below x p)
    (hy : c.Asked aims (c.branch p) y) : y ∈ next ∨ y ∈ q :: queue ∨ y ∈ e.visited := by
  have hq : q ∈ q :: queue := List.mem_cons_self
  cases hexpands with
  | atomic => cases hx
  | entered => cases hx
  | @entry i t hk hfree hi hparent ht _ hdefault =>
    have hnext : c.defaultTargets q = (c.transition t).targets := by
      rw [defaultTargets, hdefault]
    have hxq := (hc.entry hi hparent ht).2 x hx
    rcases hw.within_or_below hxp.within hxq.within with hpq | hqp
    · -- The state that is entered by default asks for nothing but its default entry.
      have hfree' : ∀ {z}, z ∈ q :: queue ∨ z ∈ e.visited → ¬ c.Below z q :=
        hs.not_below_of_free hw hfree
      have hqd : c.InDomain q d := by
        rcases within_iff.1 hpq with rfl | hpq
        · exact hp
        · refine (ha.outward hw hp hpq).resolve_right ?_
          rintro ⟨z, hz, hzq⟩
          exact hfree' (hs.kept z (ha.seeded z hz)).symm hzq
      have hnone : ∀ z, c.Asked aims (c.ancestors q) z → ¬ c.Below z q := fun z hz =>
        hfree' (h.around hw ha hs (.inl hq) hqd hz)
      have hasks : ∀ {z}, z ∈ (c.transition t).targets → c.Asked aims (c.branch q) z := by
        intro z hz
        exact ⟨(hc.entry hi hparent ht).2 z hz, .inr ⟨hk, hnone, hnext ▸ hz⟩⟩
      obtain ⟨-, hyq⟩ := (hw.asked_of_outer hpq (hasks hx) hxp).1 hy
      obtain ⟨hbelow, haround | ⟨-, -, hdefaults⟩⟩ := asked_branch.1 hyq
      · exact absurd hbelow (hnone y haround)
      · exact .inl (hnext ▸ hdefaults)
    · exact .inr (h.asked hp (.inl hq) hqp hy)
  | regions hk =>
    have hkp := (hw.below_iff_within_parent (hw.mem_children.1 hx).1).1 hxp
    rcases within_iff.1 hkp with rfl | hqp
    · obtain ⟨-, haround | ⟨hcompound, -⟩⟩ := asked_branch.1 hy
      · exact .inr (h.around hw ha hs (.inl hq) hp haround)
      · rw [hk] at hcompound
        cases hcompound
    · exact .inr (h.asked hp (.inl hq) hqp hy)
  | history hk =>
    have hordinary := (h.ordinary q (.inl hq)).2
    rw [hk.isPseudo] at hordinary
    cases hordinary

theorem Heeded.expand (hw : c.WellFormed) (hc : c.Checked) (hp : c.Direct)
    (hr : c.RecallsBelow histories) (ha : Aimed c residual aims seeds d)
    (hs : Supported c seeds (q :: queue) e) (h : Heeded c aims d (q :: queue) e)
    (hvisited : e'.visited = e.visited.insert q)
    (hexpands : Expands c histories queue q { e with visited := e.visited.insert q } e' next) :
    Heeded c aims d (queue ++ next) e' := by
  have hkeep : ∀ {y}, y ∈ q :: queue ∨ y ∈ e.visited → y ∈ queue ++ next ∨ y ∈ e'.visited := by
    intro y hy
    rw [hvisited, StateSet.mem_insert, List.mem_append]
    rcases hy with hy | hy
    · rcases List.mem_cons.1 hy with rfl | hy
      · exact .inr (.inl rfl)
      · exact .inl (.inl hy)
    · exact .inr (.inr hy)
  refine ⟨?_, ?_, ?_⟩
  · intro x hx
    rw [hvisited, StateSet.mem_insert, List.mem_append] at hx
    rcases hx with (hx | hx) | rfl | hx
    · exact h.ordinary x (.inl (List.mem_cons_of_mem q hx))
    · exact (hexpands.next_below hw hc hp hr x hx).1
    · exact h.ordinary x (.inl List.mem_cons_self)
    · exact h.ordinary x (.inr hx)
  · intro f hf
    rw [hvisited, StateSet.mem_insert]
    rcases hexpands.mem_targets.1 hf with hf | ⟨rfl, -⟩
    · exact .inr (h.reached f hf)
    · exact .inl rfl
  · intro p x y hpd hx hxp hy
    rw [hvisited, StateSet.mem_insert, List.mem_append] at hx
    have hold : x ∈ q :: queue ∨ x ∈ e.visited → y ∈ queue ++ next ∨ y ∈ e'.visited :=
      fun hx => hkeep (h.asked hpd hx hxp hy)
    rcases hx with (hx | hx) | rfl | hx
    · exact hold (.inl (List.mem_cons_of_mem q hx))
    · rcases h.asked_next hw hc ha hs hexpands hpd hx hxp hy with hnext | hwaits
      · exact .inl (List.mem_append_right queue hnext)
      · exact hkeep hwaits
    · exact hold (.inl List.mem_cons_self)
    · exact hold (.inr hx)

end Steps

theorem keptByDrain_heeded (hw : c.WellFormed) (hc : c.Checked) (hp : c.Direct)
    (hr : c.RecallsBelow histories) (ha : Aimed c residual aims seeds d) :
    KeptByDrain c histories residual seeds
      (fun queue e => Supported c seeds queue e ∧ Heeded c aims d queue e) where
  supported := And.left
  drop h := ⟨h.1.dropWhile hw, h.2.dropWhile⟩
  missing h :=
    ⟨(keptByDrain_supported hw hc hp hr residual).missing h.1, h.2.missing hw ha h.1⟩
  expand := by
    rintro q queue e ⟨hsupported, hheeded⟩ hnew
    obtain ⟨hvisited, hexpands⟩ := expands_expand hw histories queue
      { e with visited := e.visited.insert q } (hsupported.leading q (by simp))
    exact ⟨(keptByDrain_supported hw hc hp hr residual).expand hsupported hnew,
      hheeded.expand hw hc hp hr ha hsupported hvisited hexpands⟩

/-- Below the domain everything that is asked for inside an active state is active, when what stays
active does not lie there. -/
theorem active_of_asked (hw : c.WellFormed) (hc : c.Checked) (hp : c.Direct)
    (hr : c.RecallsBelow histories) (ha : Aimed c residual aims seeds d)
    (hordinary : ∀ x ∈ seeds, c.Ordinary x) (hseeds : Supported c seeds seeds .empty) {p y : Nat}
    (hactive : p ∈ c.closure (residual.union (c.expand histories seeds residual).targets).members)
    (hpd : c.InDomain p d) (hy : c.Asked aims (c.branch p) y) :
    y ∈ c.closure (residual.union (c.expand histories seeds residual).targets).members := by
  obtain ⟨⟨hsupported, hheeded⟩, -⟩ := (keptByDrain_heeded hw hc hp hr ha).drain hw c.nodes.size
    seeds .empty ⟨hseeds, ha.heeded hw hordinary⟩ (by omega)
  change Supported c seeds [] (c.expand histories seeds residual) at hsupported
  change Heeded c aims d [] (c.expand histories seeds residual) at hheeded
  obtain ⟨f, hf, hfp⟩ := hw.mem_closure.1 hactive
  have hft : f ∈ (c.expand histories seeds residual).targets :=
    (StateSet.mem_union.1 hf).resolve_left fun hf =>
      ha.stays f hf (hw.inDomain_of_within hfp hpd)
  have hbelow : c.Below f p := by
    apply (within_iff.1 hfp).resolve_left
    rintro rfl
    exact hsupported.atomic.not_composite hft (hw.composite_of_below hy.below)
  have hvisited := (hheeded.asked hpd (.inr (hheeded.reached f hft)) hbelow hy).resolve_left
    List.not_mem_nil
  obtain ⟨g, hg, hgy⟩ := mem_closure_of_supported hsupported hvisited
    (hheeded.ordinary y (.inr hvisited)).2
  exact hw.mem_closure.2 ⟨g, StateSet.mem_union.2 (.inr hg), hgy⟩

end Expansion

end Statechart
