import Statechart.Proofs.Steering

/-!
Transitions followed together and one at a time. What a set of transitions leads to is fixed by a
few conditions: it is legal, it holds what was active outside their domains and all their targets,
and inside each domain what is asked for there. The conditions speak of each transition by itself.
So they are met when the transitions are followed one after the other, in any order, and only one
set meets them.
-/

namespace Statechart

/-- The start, the default entries and the transitions of states name nothing but states. -/
structure Chart.Explicit (c : Chart) : Prop where
  start : ∀ x ∈ c.initial, c.isPseudo x = false
  entries : ∀ i < c.nodes.size, c.kind i = .initial → ∀ t ∈ (c.node i).transitions,
    ∀ x ∈ (c.transition t).targets, c.isPseudo x = false
  targets : ∀ t < c.transitions.size, c.isPseudo (c.transition t).source = false →
    ∀ x ∈ (c.transition t).targets, c.isPseudo x = false

/-- The states without children that are active after the transitions `ts` fired together, when
`states` were active before. -/
def Chart.follow (c : Chart) (histories : Histories) (states : StateSet) (ts : List Nat) :
    StateSet :=
  (c.plan histories ⟨states, c.closure states.members, none, 0⟩ ts).next

variable {c : Chart} {histories : Histories}

theorem Chart.Explicit.direct (hx : c.Explicit) : c.Direct where
  start := hx.start
  entries i hi := hx.entries i (lt_size_of_isPseudo (isPseudo_of_initial hi)) hi
  targets t ht hs := .inl (hx.targets t ht hs)

theorem Chart.follow_eq (states : StateSet) (ts : List Nat) : c.follow histories states ts =
    (c.staying states ts).union
      (c.expand histories (c.seeds (c.staying states ts) ts) (c.staying states ts)).targets := rfl

/-- What is active after a plan depends on nothing else of what was before. -/
theorem Chart.plan_next (before : Status) (ts : List Nat) :
    (c.plan histories before ts).next = c.follow histories before.states ts := rfl

namespace Expansion

theorem expand_of_ordinary {later : Histories} {queue : List Nat} {q : Nat} (e : Expansion)
    (hq : c.isPseudo q = false) : expand c histories queue q e = expand c later queue q e := by
  unfold expand
  cases hk : c.kind q with
  | history depth =>
    rw [Chart.isPseudo, hk] at hq
    cases hq
  | simple => rfl
  | compound => rfl
  | parallel => rfl
  | final => rfl
  | initial => rfl

theorem Expands.next_ordinary (hw : c.WellFormed) (hx : c.Explicit) {queue next : List Nat}
    {q : Nat} {e e' : Expansion} (hq : c.isPseudo q = false)
    (h : Expands c histories queue q e e' next) : ∀ x ∈ next, c.Ordinary x := by
  intro x hnext
  cases h with
  | atomic => cases hnext
  | entered => cases hnext
  | entry _ _ hi _ ht => exact ⟨hw.targets_lt hnext, hx.direct.entries _ hi _ ht x hnext⟩
  | regions => exact hw.ordinary_of_mem_children hnext
  | history hk =>
    rw [hk.isPseudo] at hq
    cases hq

theorem drain_of_ordinary (hw : c.WellFormed) (hx : c.Explicit) {residual : StateSet}
    (later : Histories) (steps : Nat) (queue : List Nat) (e : Expansion)
    (hqueue : ∀ q ∈ queue, c.Ordinary q) :
    drain c histories residual steps queue e = drain c later residual steps queue e := by
  induction steps generalizing queue e with
  | zero => rfl
  | succ steps ih =>
    have hpending : ∀ q ∈ e.pending c residual queue, c.Ordinary q := by
      intro q hq
      rcases pending_cases c residual queue e with ⟨-, hmissing⟩ | hwaits
      · rw [hmissing] at hq
        exact ordinary_of_mem_missing hw hq
      · rw [hwaits] at hq
        exact hqueue q ((List.dropWhile_sublist _).subset hq)
    rw [drain, drain]
    cases hcase : e.pending c residual queue with
    | nil => rfl
    | cons q rest =>
      rw [hcase] at hpending
      have hq := hpending q List.mem_cons_self
      have hexpand : ∀ e, expand c histories rest q e = expand c later rest q e :=
        fun e => expand_of_ordinary e hq.2
      simp only [hexpand]
      apply ih
      intro x hmem
      rcases List.mem_append.1 hmem with hmem | hmem
      · exact hpending x (List.mem_cons_of_mem q hmem)
      · exact (expands_expand hw later rest _ (.inl hq)).2.next_ordinary hw hx hq.2 x hmem

end Expansion

namespace Chart

/-- There is a store that is sound whatever the defaults of histories are: every history remembers
one state beside it. -/
theorem WellFormed.exists_recalls (hw : c.WellFormed) :
    ∃ later, c.RecallsBelow later ∧ c.RecallsJoined later := by
  let entries := (c.states.filter (fun h => decide (c.IsHistory h))).map fun h =>
    (h, StateSet.ofList ((c.siblings h).take 1))
  have hkeys : (entries.map Prod.fst).Nodup := by
    rw [List.map_map]
    exact (List.nodup_range.filter _).map fun _ _ heq => heq
  have hrecalled : ∀ h p, c.IsHistory h → c.parent h = some p → ∃ x, x ∈ c.children p ∧
      c.recalled (.ofList entries) h = [x] := by
    intro h p hh hp
    obtain ⟨x, rest, hchildren⟩ :=
      List.exists_cons_of_ne_nil (hw.children_ne_nil (hw.parent_composite hp))
    have hentry : (h, StateSet.ofList [x]) ∈ entries := by
      refine List.mem_map.2 ⟨h, ?_, ?_⟩
      · simp [states, hh, lt_size_of_parent hp]
      · simp [siblings, hp, hchildren]
    have hget := (SortedMap.get?_ofList hkeys).2 hentry
    refine ⟨x, by simp [hchildren], ?_⟩
    rw [recalled, hget]
    rfl
  refine ⟨.ofList entries, ?_, ?_⟩
  · intro h p hh hp
    obtain ⟨x, hx, hrecalls⟩ := hrecalled h p hh hp
    rw [hrecalls]
    refine ⟨by simp, ?_⟩
    intro y hy
    obtain rfl := List.mem_singleton.1 hy
    exact ⟨hw.ordinary_of_mem_children hx, hw.below_parent (hw.mem_children.1 hx).1⟩
  · intro h hh
    obtain ⟨p, hp⟩ := hw.pseudo_parent hh.isPseudo
    obtain ⟨x, -, hrecalls⟩ := hrecalled h p hh hp
    rw [hrecalls]
    exact List.pairwise_singleton _ _

/-- `x` lies below the domain of the transition `t`, which has targets. -/
def Moves (c : Chart) (t x : Nat) : Prop :=
  (c.transition t).targets ≠ [] ∧ c.InDomain x (c.scope (c.transition t))

/-- The states `next` without children are what the transitions `ts` lead to from `states`. -/
structure Follows (c : Chart) (states : StateSet) (ts : List Nat) (next : StateSet) : Prop where
  atomic : c.AllAtomic next
  legal : c.Legal (c.closure next.members)
  kept : ∀ {x}, (∀ t ∈ ts, ¬ c.Moves t x) →
    (x ∈ c.closure next.members ↔ x ∈ c.closure states.members)
  targets : ∀ {t x}, t ∈ ts → x ∈ (c.transition t).targets → x ∈ c.closure next.members
  asked : ∀ {t p y}, t ∈ ts → c.Moves t p → p ∈ c.closure next.members →
    c.Asked (c.transition t).targets (c.branch p) y → y ∈ c.closure next.members

section Follows

variable {states next next' : StateSet} {ts us : List Nat}

theorem Follows.of_mem_iff (h : c.Follows states ts next) (hmem : ∀ t, t ∈ us ↔ t ∈ ts) :
    c.Follows states us next where
  atomic := h.atomic
  legal := h.legal
  kept hx := h.kept fun t ht => hx t ((hmem t).2 ht)
  targets ht := h.targets ((hmem _).1 ht)
  asked ht := h.asked ((hmem _).1 ht)

/-- Transitions without targets lead nowhere. -/
theorem follows_self (hatomic : c.AllAtomic states) (hl : c.Legal (c.closure states.members))
    (hnone : ∀ t ∈ ts, (c.transition t).targets = []) : c.Follows states ts states where
  atomic := hatomic
  legal := hl
  kept _ := .rfl
  targets ht hx := by
    rw [hnone _ ht] at hx
    cases hx
  asked ht hp := absurd (hnone _ ht) hp.1

variable (hw : c.WellFormed)

include hw

theorem moves_of_target {t x : Nat} (hx : x ∈ (c.transition t).targets) : c.Moves t x := by
  refine ⟨List.ne_nil_of_mem hx, ?_⟩
  have hdomain := hw.isDomain_scope (c.transition t)
  intro a ha
  rw [ha] at hdomain
  exact (domain_spec hdomain).2.2 x hx

theorem Moves.within {t x y : Nat} (h : c.Moves t x) (hyx : c.Within y x) : c.Moves t y :=
  ⟨h.1, hw.inDomain_of_within hyx h.2⟩

/-- States beside each other lie below the same domains. -/
theorem Moves.beside {t x y : Nat} (h : c.Moves t x) (hxy : c.parent x = c.parent y) :
    c.Moves t y := by
  refine ⟨h.1, ?_⟩
  intro a ha
  obtain ⟨p, hp, hpa⟩ := hw.exists_parent_of_below (h.2 a ha)
  exact (hw.below_iff_within_parent (hxy ▸ hp)).2 hpa

/-- A target lies inside every state around one below the domain that is not below it itself. -/
theorem Moves.target_below {t x y p : Nat} (h : c.Moves t x) (hp : c.parent x = some p)
    (hnot : ¬ c.Moves t p) (hy : c.Moves t y) : c.Below y p := by
  cases hd : c.scope (c.transition t) with
  | none =>
    refine absurd ⟨h.1, ?_⟩ hnot
    rw [hd]
    exact inDomain_none p
  | some a =>
    have hpa := (hw.below_iff_within_parent hp).1 (h.2 a hd)
    rcases within_iff.1 hpa with rfl | hbelow
    · exact hy.2 p hd
    · refine absurd ⟨h.1, ?_⟩ hnot
      rw [hd]
      exact inDomain_some.2 hbelow

theorem Follows.closure_subset (hc : c.Checked) (h : c.Follows states ts next)
    (h' : c.Follows states ts next') :
    ∀ x ∈ c.closure next.members, x ∈ c.closure next'.members := by
  intro x hx
  -- From the outside in: the state around `x` belongs to both.
  induction x using Nat.strong_induction_on with
  | _ x ih =>
    by_cases hmoved : ∃ t ∈ ts, c.Moves t x
    · obtain ⟨t, ht, hmoves⟩ := hmoved
      obtain ⟨y, hy⟩ := List.exists_mem_of_ne_nil _ hmoves.1
      by_cases hup : ∃ p, c.parent x = some p ∧ c.Moves t p
      · obtain ⟨p, hp, hmp⟩ := hup
        have hpN := h.legal.upward hx hp
        have hpN' := ih p (hw.parent_lt hp) hpN
        rcases hw.parent_composite hp with hk | hk
        · obtain ⟨z, hz⟩ : ∃ z, c.Asked (c.transition t).targets (c.branch p) z :=
            hw.exists_asked hc hk
          apply hw.mem_of_shared h'.legal h.legal hx (h'.asked ht hmp hpN' hz)
            (h.asked ht hmp hpN hz)
          intro q hq
          rw [← Option.some.inj (hp.symm.trans hq)]
          exact hz.below
        · exact h'.legal.parallel hpN' hk x (hw.mem_children.2 ⟨hp, (h.legal.ordinary hx).2⟩)
      · apply hw.mem_of_shared h'.legal h.legal hx (h'.targets ht hy) (h.targets ht hy)
        intro p hp
        exact hmoves.target_below hw hp (fun hmp => hup ⟨p, hp, hmp⟩) (moves_of_target hw hy)
    · simp only [not_exists, not_and] at hmoved
      rw [h'.kept hmoved, ← h.kept hmoved]
      exact hx

/-- One set at most meets the conditions. -/
theorem Follows.unique (hc : c.Checked) (h : c.Follows states ts next)
    (h' : c.Follows states ts next') : next = next' := by
  have hmem : ∀ {s : StateSet}, c.AllAtomic s → ∀ x,
      x ∈ s ↔ x ∈ c.closure s.members ∧ c.isAtomic x = true := by
    intro s hs x
    constructor
    · exact fun hx => ⟨hw.mem_closure_of_mem hx, (hs x hx).1⟩
    · rintro ⟨hx, hatomic⟩
      obtain ⟨y, hy, hyx⟩ := hw.mem_closure.1 hx
      have hleaf : ¬ c.IsComposite x := fun hcomposite => by simp [hcomposite.not_atomic] at hatomic
      rwa [← hw.eq_of_within hleaf hyx]
  apply StateSet.ext
  intro x
  rw [hmem h.atomic, hmem h'.atomic]
  exact and_congr_left' ⟨h.closure_subset hw hc h' x, h'.closure_subset hw hc h x⟩

end Follows

/-- The domains of `t` and `u` lie in different regions, if both have targets. -/
def Separate (c : Chart) (t u : Nat) : Prop :=
  (c.transition t).targets ≠ [] → (c.transition u).targets ≠ [] →
    ∃ a b, c.scope (c.transition t) = some a ∧ c.scope (c.transition u) = some b ∧
      c.Orthogonal a b

/-- Nothing below the domain of the one transition lies within the domain of the other. -/
theorem Separate.not_within (hw : c.WellFormed) {t u x : Nat} (h : c.Separate t u)
    (hx : c.Moves t x) (hu : (c.transition u).targets ≠ []) :
    ∃ b, c.scope (c.transition u) = some b ∧ ¬ c.Within x b := by
  obtain ⟨a, b, ha, hb, horth⟩ := h hx.1 hu
  refine ⟨b, hb, fun hxb => ?_⟩
  have hself := WellFormed.Orthogonal.mono hw horth (hx.2 a ha).within hxb
  exact hw.not_within_of_orthogonal hself (.refl x)

theorem Separate.not_moves (hw : c.WellFormed) {t u x : Nat} (h : c.Separate t u)
    (hx : c.Moves t x) : ¬ c.Moves u x := by
  intro hxu
  obtain ⟨b, hb, hnot⟩ := h.not_within hw hx hxu.1
  exact hnot (hxu.2 b hb).within

theorem FireTogether.separate (hw : c.WellFormed) {states : StateSet} {ts : List Nat}
    (hl : c.Legal (c.closure states.members)) (hfire : c.FireTogether states ts) {t u : Nat}
    (ht : t ∈ ts) (hu : u ∈ ts) (hne : t ≠ u) : c.Separate t u :=
  fun htt hut => domains_orthogonal hw hl hfire ht hu hne htt hut (hw.isDomain_scope _)
    (hw.isDomain_scope _)

/-- Following one transition and then others that lead elsewhere is following all of them. -/
theorem Follows.cons (hw : c.WellFormed) {states middle next : StateSet} {t : Nat}
    {rest : List Nat} (hseparate : ∀ u ∈ rest, c.Separate t u)
    (h : c.Follows states [t] middle) (h' : c.Follows middle rest next) :
    c.Follows states (t :: rest) next := by
  -- What the first transition leads to, the others leave alone.
  have hleft : ∀ {x}, c.Moves t x →
      (x ∈ c.closure next.members ↔ x ∈ c.closure middle.members) :=
    fun hx => h'.kept fun u hu => (hseparate u hu).not_moves hw hx
  refine ⟨h'.atomic, h'.legal, ?_, ?_, ?_⟩
  · intro x hx
    rw [h'.kept fun u hu => hx u (List.mem_cons_of_mem t hu), h.kept]
    intro u hu
    rw [List.mem_singleton.1 hu]
    exact hx t List.mem_cons_self
  · intro u x hu hx
    rcases List.mem_cons.1 hu with rfl | hu
    · exact (hleft (moves_of_target hw hx)).2 (h.targets (List.mem_singleton.2 rfl) hx)
    · exact h'.targets hu hx
  · intro u p y hu hp hpn hy
    rcases List.mem_cons.1 hu with rfl | hu
    · have hasked := h.asked (List.mem_singleton.2 rfl) hp ((hleft hp).1 hpn) hy
      exact (hleft (hp.within hw hy.below.within)).2 hasked
    · exact h'.asked hu hp hpn hy

/-- Transitions without targets change nothing. -/
theorem follow_of_targetless (hw : c.WellFormed) {states : StateSet} {ts : List Nat}
    (hl : c.Legal (c.closure states.members)) (hnone : ∀ t ∈ ts, (c.transition t).targets = []) :
    c.follow histories states ts = states := by
  have hstaying : c.staying states ts = states := by
    have hexit : ∀ t ∈ ts, c.exitSet (c.transition t) states = ∅ := by
      intro t ht
      simp [exitSet, hnone t ht]
    apply StateSet.ext
    intro x
    simp only [staying, exited, StateSet.mem_diff, StateSet.mem_foldl_union,
      StateSet.not_mem_empty, false_or, and_iff_left_iff_imp]
    rintro - ⟨t, ht, hx⟩
    rw [hexit t ht] at hx
    exact StateSet.not_mem_empty x hx
  have hseeds : c.seeds states ts = [] := by
    rw [List.eq_nil_iff_forall_not_mem]
    intro q hq
    rcases mem_seeds hw hq with ⟨t, ht, hx⟩ | ⟨t, ht, x, p, hbeside⟩
    · rw [hnone t ht] at hx
      cases hx
    · have hx := hbeside.target
      rw [hnone t ht] at hx
      cases hx
  -- All regions of parallel states are active already, so that none is missing.
  have hmissing : Expansion.empty.missing c states = [] := by
    rw [List.eq_nil_iff_forall_not_mem]
    intro x hx
    obtain ⟨⟨p, f, hf, hfp, hk, hxp⟩, hfree, -⟩ := (Expansion.mem_missing hw).1 hx
    have hf' : f ∈ states := hf.resolve_right (StateSet.not_mem_empty f)
    have hxA := hl.parallel (hw.mem_closure.2 ⟨f, hf', hfp⟩) hk x hxp
    obtain ⟨g, hg, hgx⟩ := hw.mem_closure.1 hxA
    exact hfree g (.inl hg) hgx
  have hexpand : c.expand histories [] states = .empty := by
    unfold Chart.expand
    cases c.nodes.size with
    | zero => rfl
    | succ n =>
      have hpending : Expansion.empty.pending c states [] = [] := hmissing
      rw [Expansion.drain, hpending]
  rw [follow_eq, hstaying, hseeds, hexpand]
  rfl

section Firing

variable {states : StateSet} {ts : List Nat} (hw : c.WellFormed) (hc : c.Checked)
  (hx : c.Explicit) (hl : c.Legal (c.closure states.members)) (hfire : c.FireTogether states ts)

include hw hx hl hfire

theorem ordinary_of_mem_seeds {residual : StateSet} {q : Nat} (hq : q ∈ c.seeds residual ts) :
    c.Ordinary q := by
  rcases mem_seeds hw hq with ⟨t, ht, hqt⟩ | ⟨t, ht, x, p, hbeside⟩
  · have hsource := (hl.ordinary (hfire.source t ht)).2
    exact ⟨hw.targets_lt hqt, hx.targets t (hfire.lt_size t ht) hsource q hqt⟩
  · exact hbeside.ordinary hw

/-- What histories remember does not matter. -/
theorem follow_histories (later : Histories) :
    c.follow histories states ts = c.follow later states ts := by
  have hexpand : c.expand histories (c.seeds (c.staying states ts) ts) (c.staying states ts) =
      c.expand later (c.seeds (c.staying states ts) ts) (c.staying states ts) :=
    Expansion.drain_of_ordinary hw hx later _ _ _
      (fun q hq => ordinary_of_mem_seeds hw hx hl hfire hq)
  rw [follow_eq, follow_eq, hexpand]

omit hx in
/-- Below the domain of a transition the seeds are its own. -/
theorem aimed_of_fire {t : Nat} (ht : t ∈ ts) (htargets : (c.transition t).targets ≠ []) :
    Expansion.Aimed c (c.staying states ts) (c.transition t).targets
      (c.seeds (c.staying states ts) ts) (c.scope (c.transition t)) where
  nonempty := htargets
  inside y hy := (moves_of_target hw hy).2
  seeded y hy := mem_seeds_of_target ht hy
  led := by
    intro q s hq hk hs hqs
    have hqt : c.Moves t q := Moves.within hw ⟨htargets, hs⟩ hqs.within
    -- A seed of another transition lies below the domain of that one.
    have hown : ∀ {u}, u ∈ ts → c.Moves u q → t = u := by
      intro u hu hqu
      by_contra hne
      exact (hfire.separate hw hl ht hu hne).not_moves hw hqt hqu
    rcases mem_seeds hw hq with ⟨u, hu, hqu⟩ | ⟨u, hu, x, p, hbeside⟩
    · obtain rfl := hown hu (moves_of_target hw hqu)
      exact ⟨q, hqu, hqs⟩
    · obtain ⟨r, hr, -, hxr, hrd⟩ := hbeside.region
      have hqp := (hw.mem_children.1 hbeside.child).1
      have hmoves : c.Moves u r := ⟨List.ne_nil_of_mem hbeside.target, hrd⟩
      obtain rfl := hown hu (hmoves.beside hw (hr.trans hqp.symm))
      have hps := (hw.below_iff_within_parent hqp).1 hqs
      exact ⟨x, hbeside.target,
        hw.below_of_below_of_within (hw.below_of_within_child hr hxr) hps⟩
  stays r hr := (outside_of_staying hw hl hfire r hr).2 t ht htargets

omit hx in
/-- What is active outside the domains is what was active there. -/
theorem kept_of_fire {next : StateSet} (hnext : c.Legal (c.closure next.members))
    (hstays : ∀ {x}, x ∈ c.closure states.members → (∀ t ∈ ts, ¬ c.Moves t x) →
      x ∈ c.closure next.members)
    {t : Nat} (ht : t ∈ ts) {x : Nat} (hxn : x ∈ c.closure next.members)
    (hmoves : ∀ t ∈ ts, ¬ c.Moves t x) : x ∈ c.closure states.members := by
  -- From the outside in: beside `x` something is active, and that is left alone like `x`.
  induction x using Nat.strong_induction_on with
  | _ x ih =>
    have hbeside : ∀ {z}, z ∈ c.closure states.members → c.parent z = c.parent x →
        z ∈ c.closure next.members := by
      intro z hz hzx
      exact hstays hz fun u hu hzu => hmoves u hu (hzu.beside hw hzx)
    cases hp : c.parent x with
    | none =>
      obtain ⟨z, hz, hsz⟩ := hw.exists_top (c.transition t).source
      have hzA := hw.upward_of_legal hl (hfire.source t ht) hsz
      exact hw.mem_of_shared hl hnext hxn hzA (hbeside hzA (hz.trans hp.symm))
        (fun p hp' => by rw [hp] at hp'; cases hp')
    | some p =>
      have hpA := ih p (hw.parent_lt hp) (hnext.upward hxn hp)
        (fun u hu hpu => hmoves u hu (hpu.within hw (hw.below_parent hp).within))
      obtain ⟨z, hz, hzA⟩ := hw.exists_child_of_legal hl hpA (hw.parent_composite hp)
      have hzp := (hw.mem_children.1 hz).1
      apply hw.mem_of_shared hl hnext hxn hzA (hbeside hzA (hzp.trans hp.symm))
      intro q hq
      rw [← Option.some.inj (hp.symm.trans hq)]
      exact hw.below_parent hzp

include hc

/-- Transitions that can fire together lead to what the conditions say. -/
theorem follows_follow (hatomic : c.AllAtomic states) :
    c.Follows states ts (c.follow histories states ts) := by
  by_cases htargets : ∃ t ∈ ts, (c.transition t).targets ≠ []
  · obtain ⟨t, ht, -⟩ := htargets
    obtain ⟨later, hr, hj⟩ := hw.exists_recalls
    rw [follow_histories hw hx hl hfire later]
    have hp := hx.direct
    have hne : ∃ s, s ∈ states := by
      obtain ⟨s, hs, -⟩ := hw.mem_closure.1 (hfire.source t ht)
      exact ⟨s, hs⟩
    let before : Status := ⟨states, c.closure states.members, none, 0⟩
    have hfits : c.Fits before.all (c.plan later before ts) :=
      fits_plan hw hc hp hr hj hatomic rfl hl hne hfire
    have hsupported := seeds_supported hw hl hfire hc hp (c.staying states ts)
    have hdone := (Expansion.supported_expand hw hc hp hr (c.staying states ts) hsupported).1
    refine ⟨hfits.atomic, hfits.legal, ?_, ?_, ?_⟩
    · intro x hmoves
      have hstays : ∀ {x}, x ∈ c.closure states.members → (∀ t ∈ ts, ¬ c.Moves t x) →
          x ∈ c.closure (c.follow later states ts).members := by
        intro x hxs hmoves
        refine mem_closure_of_not_exited hw hl hfire hdone hxs ?_
        intro hexited
        obtain ⟨-, u, hu, hxu⟩ := (mem_exited hw hl hfire).1 hexited
        exact hmoves u hu hxu
      exact ⟨fun hxn => kept_of_fire hw hl hfire hfits.legal hstays ht hxn hmoves,
        fun hxs => hstays hxs hmoves⟩
    · intro u x hu hxu
      have hseed : x ∈ c.seeds (c.staying states ts) ts := mem_seeds_of_target hu hxu
      have hvisited := (hdone.kept x hseed).resolve_right List.not_mem_nil
      obtain ⟨f, hf, hfx⟩ := Expansion.mem_closure_of_supported hdone hvisited
        (ordinary_of_mem_seeds hw hx hl hfire hseed).2
      exact hw.mem_closure.2 ⟨f, StateSet.mem_union.2 (.inr hf), hfx⟩
    · intro u p y hu hpu hpn hy
      exact Expansion.active_of_asked hw hc hp hr (aimed_of_fire hw hl hfire hu hpu.1)
        (fun q hq => ordinary_of_mem_seeds hw hx hl hfire hq) hsupported hpn hpu.2 hy
  · have hnone : ∀ t ∈ ts, (c.transition t).targets = [] := by
      intro t ht
      by_contra hne
      exact htargets ⟨t, ht, hne⟩
    rw [follow_of_targetless hw hl hnone]
    exact follows_self hatomic hl hnone

end Firing

/-- One transition after the other leads to what the conditions say of all of them. -/
theorem follows_foldl (hw : c.WellFormed) (hc : c.Checked) (hx : c.Explicit) {states : StateSet}
    {us : List Nat} (hatomic : c.AllAtomic states) (hl : c.Legal (c.closure states.members))
    (hlt : ∀ t ∈ us, t < c.transitions.size)
    (hsource : ∀ t ∈ us, (c.transition t).targets ≠ [] →
      (c.transition t).source ∈ c.closure states.members)
    (hseparate : us.Pairwise c.Separate) :
    c.Follows states us (us.foldl (fun states t => c.follow histories states [t]) states) := by
  induction us generalizing states with
  | nil => exact follows_self hatomic hl (fun t ht => nomatch ht)
  | cons t rest ih =>
    have ht : t ∈ t :: rest := List.mem_cons_self
    have hfirst : c.Follows states [t] (c.follow histories states [t]) := by
      by_cases htargets : (c.transition t).targets = []
      · have hnone : ∀ u ∈ [t], (c.transition u).targets = [] := by simpa using htargets
        rw [follow_of_targetless hw hl hnone]
        exact follows_self hatomic hl hnone
      · exact follows_follow hw hc hx hl
          ⟨by simpa using hlt t ht, by simpa using hsource t ht htargets,
            List.pairwise_singleton _ _⟩ hatomic
    rw [List.pairwise_cons] at hseparate
    refine hfirst.cons hw hseparate.1 (ih hfirst.atomic hfirst.legal ?_ ?_ hseparate.2)
    · exact fun u hu => hlt u (List.mem_cons_of_mem t hu)
    · -- The first transition leaves the sources of the others active.
      intro u hu hut
      rw [hfirst.kept]
      · exact hsource u (List.mem_cons_of_mem t hu) hut
      · intro v hv hmoves
        rw [List.mem_singleton.1 hv] at hmoves
        obtain ⟨b, hb, hnot⟩ := (hseparate.1 u hu).not_within hw hmoves hut
        exact hnot ((hw.isDomain_scope _).source_within b hb)

/-- In a chart that is handed out, with transitions and default entries that name nothing but
states, let transitions with active sources leave nothing in common. What is active after they
fired together is what is active when they are followed one at a time, in any order. -/
theorem plan_next_eq_foldl {o : Outline} (hbuild : o.build = .ok c) (hx : c.Explicit)
    (histories : Histories) {conf : Configuration} (hl : c.Legal conf.active) (pending : Nat)
    {ts us : List Nat} (hnodup : ts.Nodup) (hlt : ∀ t ∈ ts, t < c.transitions.size)
    (hsource : ∀ t ∈ ts, (c.transition t).source ∈ conf.active)
    (hdisjoint : ts.Pairwise fun t u =>
      (c.exitSet (c.transition t) (conf.atomic c)).isDisjoint
        (c.exitSet (c.transition u) (conf.atomic c)) = true)
    (horder : us.Perm ts) :
    (c.plan histories (Status.capture c conf pending) ts).next =
      us.foldl (fun states t => c.follow histories states [t]) (conf.atomic c) := by
  obtain ⟨hw, hc⟩ := Outline.wellFormed_of_build hbuild
  have hatomic : c.AllAtomic (conf.atomic c) := conf.allAtomic hl
  have hclosure : c.closure (conf.atomic c).members = conf.active := hw.closure_of_legal hl
  rw [← hclosure] at hl hsource
  have hfire : c.FireTogether (conf.atomic c) ts := by
    refine ⟨hlt, hsource, hdisjoint.imp ?_⟩
    intro t u htu
    rw [inConflict, htu]
    rfl
  have hseparate : us.Pairwise c.Separate := by
    refine (horder.nodup_iff.2 hnodup).imp_of_mem ?_
    intro t u ht hu hne
    exact hfire.separate hw hl (horder.mem_iff.1 ht) (horder.mem_iff.1 hu) hne
  have hjoint : c.Follows (conf.atomic c) us (c.follow histories (conf.atomic c) ts) :=
    (follows_follow hw hc hx hl hfire hatomic).of_mem_iff fun t => horder.mem_iff
  rw [plan_next]
  apply hjoint.unique hw hc
  exact follows_foldl hw hc hx hatomic hl (fun t ht => hlt t (horder.mem_iff.1 ht))
    (fun t ht _ => hsource t (horder.mem_iff.1 ht)) hseparate

end Chart

/-- A desk with a lamp and a fan, each with a switch of its own. -/
def Outline.desk : Outline where
  name := none
  datamodel := none
  initial := []
  states := [
    .mk (.named "desk" .parallel [] []) [
      .mk (.named "lamp" .plain [] []) [
        .mk (.named "dark" .plain [] [.on "power" "bright"]) [],
        .mk (.named "bright" .plain [] []) []],
      .mk (.named "fan" .plain [] []) [
        .mk (.named "still" .plain [] [.on "power" "turning"]) [],
        .mk (.named "turning" .plain [] []) []]]]
  data := []

theorem Outline.build_desk : Outline.desk.build = .ok Outline.desk.chart :=
  build_eq_ok rfl (by decide +kernel) (by decide +kernel)

namespace Chart

theorem explicit_desk : Outline.desk.chart.Explicit where
  start := by decide +kernel
  entries := by decide +kernel
  targets := by decide +kernel

/-- From a desk on which everything is off, power to both is power to the fan and then to the
lamp. -/
theorem plan_next_eq_foldl_desk : ∃ conf, conf.atomic Outline.desk.chart = StateSet.ofList [2, 6] ∧
    (Outline.desk.chart.plan ∅ (Status.capture Outline.desk.chart conf 0) [0, 2]).next =
      [2, 0].foldl (fun states t => Outline.desk.chart.follow ∅ states [t])
        (conf.atomic Outline.desk.chart) := by
  have hw := (Outline.wellFormed_of_build Outline.build_desk).1
  have hatomic : Outline.desk.chart.AllAtomic (StateSet.ofList [2, 6]) := by
    unfold AllAtomic
    decide +kernel
  have hlegal := (hw.violations_eq_nil_iff hatomic).1 (by decide +kernel)
  exact ⟨⟨Outline.desk.chart.closure (StateSet.ofList [2, 6]).members⟩, by decide +kernel,
    plan_next_eq_foldl Outline.build_desk explicit_desk ∅ hlegal 0 (by simp) (by decide +kernel)
      (by decide +kernel) (by decide +kernel) (List.Perm.swap 0 2 [])⟩

end Chart

end Statechart
