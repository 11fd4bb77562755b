import Statechart.Proofs.Returning

/-!
Expansions side by side. An expansion goes in rounds: it clears its queue, then the queue of the
missing regions, until no region is missing. When two expansions clear one queue, what they visited
before may tell them apart. But where the nodes in which they differ do not turn up, or lead to
nothing but each other, both reach the same. To see that, each is compared with the expansion that
leaves these nodes out of its queue.
-/

namespace Statechart

namespace Expansion

variable {c : Chart} {histories : Histories} {residual : StateSet}

/-- What is expanded is reached, or nothing is. -/
theorem targets_expand (queue : List Nat) (s : Nat) (e : Expansion) :
    (expand c histories queue s e).1.targets = e.targets ∨
      c.isAtomic s = true ∧ (expand c histories queue s e).1.targets = e.targets.insert s := by
  unfold expand
  cases hk : c.kind s with
  | simple | final => exact .inr ⟨by rw [Chart.isAtomic, hk]; rfl, rfl⟩
  | parallel => exact .inl rfl
  | compound =>
    dsimp only
    split
    · exact .inl rfl
    · cases c.defaultTransition? s <;> exact .inl rfl
  | history depth =>
    dsimp only
    split
    · exact .inl rfl
    · cases (c.node s).transitions.head? <;> exact .inl rfl
  | initial =>
    dsimp only
    cases (c.node s).transitions.head? <;> exact .inl rfl

theorem targets_of_expand {queue next : List Nat} {s : Nat} {e e₁ : Expansion}
    (h : expand c histories queue s { e with visited := e.visited.insert s } = (e₁, next)) :
    e₁.targets = e.targets ∨ c.isAtomic s = true ∧ e₁.targets = e.targets.insert s := by
  obtain ⟨rfl, -⟩ := Prod.ext_iff.1 h
  exact targets_expand queue s { e with visited := e.visited.insert s }

theorem visited_of_expand {queue next : List Nat} {s : Nat} {e e₁ : Expansion}
    (h : expand c histories queue s { e with visited := e.visited.insert s } = (e₁, next)) :
    e₁.visited = e.visited.insert s := by
  obtain ⟨rfl, -⟩ := Prod.ext_iff.1 h
  exact visited_expand queue s { e with visited := e.visited.insert s }

/-- All that the expansion of a node depends on is what was reached, and what waits below it. -/
theorem expand_congr {queue queue' : List Nat} {s : Nat} {e e' : Expansion}
    (htargets : e'.targets = e.targets) (hqueue : ∀ a, c.Below a s → (a ∈ queue' ↔ a ∈ queue)) :
    (expand c histories queue' s e').2 = (expand c histories queue s e).2 ∧
      (expand c histories queue' s e').1.targets = (expand c histories queue s e).1.targets := by
  have hany : (queue' ++ e'.targets.members).any (fun a => c.isDescendant a s) =
      (queue ++ e.targets.members).any (fun a => c.isDescendant a s) := by
    rw [htargets, Bool.eq_iff_iff]
    simp only [List.any_eq_true, List.mem_append, Chart.isDescendant_iff]
    constructor
    · rintro ⟨a, ha, hbelow⟩
      exact ⟨a, ha.imp_left (hqueue a hbelow).1, hbelow⟩
    · rintro ⟨a, ha, hbelow⟩
      exact ⟨a, ha.imp_left (hqueue a hbelow).2, hbelow⟩
  unfold expand
  rw [hany]
  cases c.kind s with
  | simple | final => exact ⟨rfl, congrArg (·.insert s) htargets⟩
  | parallel => exact ⟨rfl, htargets⟩
  | compound =>
    dsimp only
    split
    · exact ⟨rfl, htargets⟩
    · cases c.defaultTransition? s <;> exact ⟨rfl, htargets⟩
  | history depth =>
    dsimp only
    split
    · exact ⟨rfl, htargets⟩
    · cases (c.node s).transitions.head? <;> exact ⟨rfl, htargets⟩
  | initial =>
    dsimp only
    cases (c.node s).transitions.head? <;> exact ⟨rfl, htargets⟩

/-- A queue is cleared: its nodes are expanded in turn unless they were visited before. Of the nodes
that they lead to those that pass `keep` wait in turn. -/
inductive Clears (c : Chart) (histories : Histories) (keep : Nat → Bool) :
    List Nat → Expansion → Expansion → Prop where
  | done (e : Expansion) : Clears c histories keep [] e e
  | skip {s : Nat} {queue : List Nat} {e e' : Expansion} (h : s ∈ e.visited)
    (rest : Clears c histories keep queue e e') : Clears c histories keep (s :: queue) e e'
  | visit {s : Nat} {queue next : List Nat} {e e₁ e' : Expansion} (h : s ∉ e.visited)
    (hexpand : expand c histories queue s { e with visited := e.visited.insert s } = (e₁, next))
    (rest : Clears c histories keep (queue ++ next.filter keep) e₁ e') :
    Clears c histories keep (s :: queue) e e'

/-- Nothing is left out. -/
def everyNode : Nat → Bool := fun _ => true

theorem filter_everyNode (xs : List Nat) : xs.filter everyNode = xs :=
  List.filter_eq_self.2 (fun _ _ => rfl)

namespace Clears

variable {keep : Nat → Bool} {queue : List Nat} {e m : Expansion}

theorem unique {m' : Expansion} (h : Clears c histories keep queue e m)
    (h' : Clears c histories keep queue e m') : m' = m := by
  induction h with
  | done =>
    cases h'
    rfl
  | skip hseen _ ih =>
    cases h' with
    | skip _ rest => exact ih rest
    | visit hnew _ _ => exact absurd hseen hnew
  | visit hnew hexpand _ ih =>
    cases h' with
    | skip hseen _ => exact absurd hseen hnew
    | visit _ hexpand' rest =>
      obtain ⟨rfl, rfl⟩ := Prod.mk.inj (hexpand.symm.trans hexpand')
      exact ih rest

/-- The first node is expanded if it is new. -/
theorem visited_first {s : Nat} (h : Clears c histories everyNode (s :: queue) e m)
    (hnew : s ∉ e.visited) : Clears c histories everyNode
      (queue ++ (expand c histories queue s { e with visited := e.visited.insert s }).2)
      (expand c histories queue s { e with visited := e.visited.insert s }).1 m := by
  cases h with
  | skip hseen _ => exact absurd hseen hnew
  | visit _ hexpand rest =>
    rw [filter_everyNode] at rest
    rwa [hexpand]

theorem targets_subset (h : Clears c histories keep queue e m) :
    ∀ x ∈ e.targets, x ∈ m.targets := by
  induction h with
  | done => exact fun x hx => hx
  | skip _ _ ih => exact ih
  | @visit s queue next e e₁ m _ hexpand _ ih =>
    intro x hx
    apply ih
    rcases targets_of_expand hexpand with h | ⟨-, h⟩
    · rwa [h]
    · rw [h]
      exact StateSet.mem_insert.2 (.inr hx)

/-- If nodes of a kind lead to such nodes only, no others are reached. -/
theorem reached {P : Nat → Prop}
    (hnext : ∀ {s}, P s → ∀ queue e, ∀ x ∈ (expand c histories queue s e).2, P x)
    (h : Clears c histories keep queue e m) (hqueue : ∀ q ∈ queue, P q) :
    ∀ x ∈ m.targets, x ∈ e.targets ∨ c.isAtomic x = true ∧ P x := by
  induction h with
  | done => exact fun x hx => .inl hx
  | skip _ _ ih => exact ih (fun q hq => hqueue q (List.mem_cons_of_mem _ hq))
  | @visit s queue next e e₁ m _ hexpand _ ih =>
    have hs : P s := hqueue s List.mem_cons_self
    have hqueue' : ∀ q ∈ queue ++ next.filter keep, P q := by
      have hafter := hnext hs queue { e with visited := e.visited.insert s }
      rw [hexpand] at hafter
      intro q hq
      rcases List.mem_append.1 hq with hq | hq
      · exact hqueue q (List.mem_cons_of_mem _ hq)
      · exact hafter q (List.mem_filter.1 hq).1
    intro x hx
    rcases ih hqueue' x hx with hx | hx
    · rcases targets_of_expand hexpand with h | ⟨hatomic, h⟩
      · rw [h] at hx
        exact .inl hx
      · rw [h, StateSet.mem_insert] at hx
        rcases hx with rfl | hx
        · exact .inr ⟨hatomic, hs⟩
        · exact .inl hx
    · exact .inr hx

end Clears

/-- The same was reached, and of the nodes of `away` the same were visited. -/
structure Alike (away : Nat → Prop) (e e' : Expansion) : Prop where
  targets : e'.targets = e.targets
  visited : ∀ s, away s → (s ∈ e'.visited ↔ s ∈ e.visited)

namespace Alike

variable {away : Nat → Prop} {e e' e'' : Expansion}

theorem refl (away : Nat → Prop) (e : Expansion) : Alike away e e :=
  ⟨rfl, fun _ _ => .rfl⟩

theorem symm (h : Alike away e e') : Alike away e' e :=
  ⟨h.targets.symm, fun s hs => (h.visited s hs).symm⟩

theorem trans (h : Alike away e e') (h' : Alike away e' e'') : Alike away e e'' :=
  ⟨h'.targets.trans h.targets, fun s hs => (h'.visited s hs).trans (h.visited s hs)⟩

theorem mono {away' : Nat → Prop} (h : Alike away e e') (haway : ∀ s, away' s → away s) :
    Alike away' e e' :=
  ⟨h.targets, fun s hs => h.visited s (haway s hs)⟩

/-- They stay alike when both visit a node for which the same waits below it. -/
theorem visit (h : Alike away e e') {queue queue' next : List Nat} {s : Nat} {e₁ : Expansion}
    (hqueue : ∀ a, c.Below a s → (a ∈ queue' ↔ a ∈ queue))
    (hexpand : expand c histories queue s { e with visited := e.visited.insert s } = (e₁, next)) :
    ∃ e₁', expand c histories queue' s { e' with visited := e'.visited.insert s } = (e₁', next) ∧
      Alike away e₁ e₁' := by
  obtain ⟨e₁', next', hexpand'⟩ : ∃ e₁' next', expand c histories queue' s
    { e' with visited := e'.visited.insert s } = (e₁', next') := ⟨_, _, rfl⟩
  obtain ⟨hnext, htargets⟩ := @expand_congr c histories queue queue' s
    { e with visited := e.visited.insert s } { e' with visited := e'.visited.insert s }
    h.targets hqueue
  rw [hexpand, hexpand'] at hnext htargets
  obtain rfl : next' = next := hnext
  refine ⟨e₁', hexpand', htargets, fun x hx => ?_⟩
  rw [visited_of_expand hexpand, visited_of_expand hexpand', StateSet.mem_insert,
    StateSet.mem_insert, h.visited x hx]

/-- They stay alike when one of them visits a node that is not away and reaches nothing. -/
theorem pass (h : Alike away e e') {queue next : List Nat} {s : Nat} {e₁ : Expansion}
    (hs : ¬ away s) (hatomic : c.isAtomic s = false)
    (hexpand : expand c histories queue s { e with visited := e.visited.insert s } = (e₁, next)) :
    Alike away e₁ e' := by
  have htargets : e₁.targets = e.targets := by
    rcases targets_of_expand hexpand with htargets | ⟨hreached, -⟩
    · exact htargets
    · rw [hatomic] at hreached
      cases hreached
  refine ⟨h.targets.trans htargets.symm, fun x hx => ?_⟩
  rw [h.visited x hx, visited_of_expand hexpand, StateSet.mem_insert]
  exact ⟨.inr, fun hseen => hseen.resolve_left (fun heq => hs (heq ▸ hx))⟩

end Alike

/-- The nodes of `away` lead to such nodes and to those that `keep` leaves out, and none of these
lies below them. -/
structure Sifted (c : Chart) (histories : Histories) (keep : Nat → Bool) (away : Nat → Prop) :
    Prop where
  kept : ∀ {s}, away s → keep s = true
  next : ∀ {s}, away s → ∀ queue e, ∀ x ∈ (expand c histories queue s e).2, keep x = true → away x
  apart : ∀ {s x}, away s → keep x = false → ¬ c.Below x s

/-- The nodes that `keep` leaves out were visited before, or reach nothing and lead to such nodes
only. -/
def Idles (c : Chart) (histories : Histories) (keep : Nat → Bool) (e : Expansion) : Prop :=
  ∀ x, keep x = false → x ∈ e.visited ∨
    c.isAtomic x = false ∧ ∀ queue e, ∀ y ∈ (expand c histories queue x e).2, keep y = false

namespace Clears

variable {keep : Nat → Bool} {away : Nat → Prop} {queue : List Nat} {e e' m : Expansion}

/-- To leave the idle nodes out of the queue makes no difference. -/
theorem sift (hsifted : Sifted c histories keep away)
    (h : Clears c histories everyNode queue e m) (halike : Alike away e e')
    (hqueue : ∀ q ∈ queue, keep q = true → away q) (hidle : Idles c histories keep e) :
    ∃ m', Clears c histories keep (queue.filter keep) e' m' ∧ Alike away m m' := by
  induction h generalizing e' with
  | done => exact ⟨e', .done e', halike⟩
  | @skip s queue e m hseen _ ih =>
    have hrest : ∀ q ∈ queue, keep q = true → away q :=
      fun q hq => hqueue q (List.mem_cons_of_mem s hq)
    obtain ⟨m', hclears, hafter⟩ := ih halike hrest hidle
    refine ⟨m', ?_, hafter⟩
    cases hkeep : keep s with
    | false => rwa [List.filter_cons_of_neg (by simp [hkeep])]
    | true =>
      have haway : away s := hqueue s List.mem_cons_self hkeep
      rw [List.filter_cons_of_pos hkeep]
      exact .skip ((halike.visited s haway).2 hseen) hclears
  | @visit s queue next e e₁ m hnew hexpand _ ih =>
    rw [filter_everyNode, List.filter_append] at ih
    have hidle' : Idles c histories keep e₁ := by
      intro x hx
      rw [visited_of_expand hexpand]
      exact (hidle x hx).imp_left (fun h => StateSet.mem_insert.2 (.inr h))
    -- What waits afterwards is away or left out if what the node leads to is.
    have hqueue' : (∀ x ∈ next, keep x = true → away x) →
        ∀ q ∈ queue ++ next, keep q = true → away q := by
      intro hnext q hq
      rcases List.mem_append.1 hq with hq | hq
      · exact hqueue q (List.mem_cons_of_mem s hq)
      · exact hnext q hq
    cases hkeep : keep s with
    | false =>
      obtain ⟨hatomic, hnone⟩ := (hidle s hkeep).resolve_left hnew
      have hnext : ∀ x ∈ next, keep x = false := by
        have h := hnone queue { e with visited := e.visited.insert s }
        rwa [hexpand] at h
      have haway : ¬ away s := by
        intro h
        rw [hsifted.kept h] at hkeep
        cases hkeep
      have hfilter : next.filter keep = [] :=
        List.filter_eq_nil_iff.2 (fun x hx => by simp [hnext x hx])
      rw [hfilter, List.append_nil] at ih
      rw [List.filter_cons_of_neg (by simp [hkeep])]
      refine ih (halike.pass haway hatomic hexpand) (hqueue' ?_) hidle'
      intro x hx hkept
      rw [hnext x hx] at hkept
      cases hkept
    | true =>
      have haway : away s := hqueue s List.mem_cons_self hkeep
      have hnext : ∀ x ∈ next, keep x = true → away x := by
        have h := hsifted.next haway queue { e with visited := e.visited.insert s }
        rwa [hexpand] at h
      -- What waits below the node waits in both queues.
      have hbelow : ∀ a, c.Below a s → (a ∈ queue.filter keep ↔ a ∈ queue) := by
        intro a ha
        have hkept : keep a = true := by
          by_contra hnot
          exact hsifted.apart haway (by simpa using hnot) ha
        rw [List.mem_filter, and_iff_left hkept]
      obtain ⟨e₁', hexpand', halike'⟩ := halike.visit hbelow hexpand
      obtain ⟨m', hclears, hafter⟩ := ih halike' (hqueue' hnext) hidle'
      refine ⟨m', ?_, hafter⟩
      rw [List.filter_cons_of_pos hkeep]
      exact .visit (fun hseen => hnew ((halike.visited s haway).1 hseen)) hexpand' hclears

/-- Two expansions that clear one queue reach the same, up to idle nodes. -/
theorem alike {m' : Expansion} (hsifted : Sifted c histories keep away)
    (h : Clears c histories everyNode queue e m) (h' : Clears c histories everyNode queue e' m')
    (halike : Alike away e e') (hqueue : ∀ q ∈ queue, keep q = true → away q)
    (hidle : Idles c histories keep e) (hidle' : Idles c histories keep e') :
    Alike away m m' := by
  obtain ⟨k, hclears, hk⟩ := h.sift hsifted (.refl away e) hqueue hidle
  obtain ⟨k', hclears', hk'⟩ := h'.sift hsifted halike.symm hqueue hidle'
  obtain rfl := hclears.unique hclears'
  exact hk.trans hk'.symm

end Clears

/-- What is done once a queue is cleared: the missing regions are queued and cleared, as long as
there are some. -/
inductive Rounds (c : Chart) (histories : Histories) (residual : StateSet) :
    Expansion → Expansion → Prop where
  | last {e : Expansion} (h : e.missing c residual = []) : Rounds c histories residual e e
  | more {e m e' : Expansion} (h : e.missing c residual ≠ [])
    (hclears : Clears c histories everyNode (e.missing c residual) e m)
    (rest : Rounds c histories residual m e') : Rounds c histories residual e e'

theorem Drains.rounds {queue visits : List Nat} {e e' : Expansion}
    (h : Drains c histories residual queue e visits e') :
    ∃ m, Clears c histories everyNode queue e m ∧ Rounds c histories residual m e' := by
  induction h with
  | @done e hnone => exact ⟨e, .done e, .last hnone⟩
  | @refill e e' visits hsome _ ih =>
    obtain ⟨m, hclears, hrounds⟩ := ih
    exact ⟨e, .done e, .more hsome hclears hrounds⟩
  | skip hseen _ ih =>
    obtain ⟨m, hclears, hrounds⟩ := ih
    exact ⟨m, .skip hseen hclears, hrounds⟩
  | visit hnew hexpand _ ih =>
    obtain ⟨m, hclears, hrounds⟩ := ih
    exact ⟨m, .visit hnew hexpand (by rwa [filter_everyNode]), hrounds⟩

/-- An expansion clears its seeds and then makes its rounds. -/
theorem rounds_expand (hw : c.WellFormed) (hh : histories.Known c) {seeds : List Nat}
    (hseeds : ∀ q ∈ seeds, q < c.nodes.size) (residual : StateSet) :
    ∃ m, Clears c histories everyNode seeds .empty m ∧
      Rounds c histories residual m (c.expand histories seeds residual) := by
  obtain ⟨visits, -, -, hdrains⟩ := c.expandsOnce_expand hw hh hseeds residual
  exact ((hdrains visits _).2 ⟨rfl, rfl⟩).rounds

end Expansion

end Statechart
