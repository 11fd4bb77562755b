import Statechart.Proofs.Ceiling
import Statechart.Proofs.Conditions
import Statechart.Proofs.Sessions

/-!
Operations return. The loops of the interpreter are written down here as they go, with nothing that
bounds them: an expansion takes nodes from its queue, and fills the queue again with the missing
regions, until none is left; a macrostep makes rounds, and starts services in between, until it has
settled or has come to the ceiling. Either loop comes to an end, at what the functions with a bound
compute. For an expansion the nodes not yet visited become fewer. A macrostep comes nearer to its
ceiling with every round but those that find nothing to do; these are followed by the start of
services, and if that leaves an event the next round takes it.
-/

namespace Statechart

namespace Expansion

variable {c : Chart} {histories : Histories} {residual : StateSet}

/-- The work of an expansion: from a queue and what is noted so far, the nodes that it expands, in
order, and what is noted in the end. -/
inductive Drains (c : Chart) (histories : Histories) (residual : StateSet) :
    List Nat → Expansion → List Nat → Expansion → Prop where
  | done {e : Expansion} (h : e.missing c residual = []) : Drains c histories residual [] e [] e
  | refill {e e' : Expansion} {visits : List Nat} (h : e.missing c residual ≠ [])
    (rest : Drains c histories residual (e.missing c residual) e visits e') :
    Drains c histories residual [] e visits e'
  | skip {s : Nat} {queue visits : List Nat} {e e' : Expansion} (h : s ∈ e.visited)
    (rest : Drains c histories residual queue e visits e') :
    Drains c histories residual (s :: queue) e visits e'
  | visit {s : Nat} {queue next visits : List Nat} {e e₁ e' : Expansion} (h : s ∉ e.visited)
    (hexpand : expand c histories queue s { e with visited := e.visited.insert s } = (e₁, next))
    (rest : Drains c histories residual (queue ++ next) e₁ visits e') :
    Drains c histories residual (s :: queue) e (s :: visits) e'

/-- The work leaves no choice. -/
theorem Drains.unique {queue visits visits' : List Nat} {e e₁ e₂ : Expansion}
    (h : Drains c histories residual queue e visits e₁)
    (h' : Drains c histories residual queue e visits' e₂) : visits' = visits ∧ e₂ = e₁ := by
  induction h generalizing visits' e₂ with
  | done hnone =>
    cases h' with
    | done _ => exact ⟨rfl, rfl⟩
    | refill hsome _ => exact absurd hnone hsome
  | refill hsome _ ih =>
    cases h' with
    | done hnone => exact absurd hnone hsome
    | refill _ rest => exact ih rest
  | skip hseen _ ih =>
    cases h' with
    | skip _ rest => exact ih rest
    | visit hnew _ _ => exact absurd hseen hnew
  | visit hnew hexpand _ ih =>
    cases h' with
    | skip hseen _ => exact absurd hseen hnew
    | visit _ hexpand' rest =>
      obtain ⟨rfl, rfl⟩ := Prod.mk.inj (hexpand.symm.trans hexpand')
      obtain ⟨rfl, rfl⟩ := ih rest
      exact ⟨rfl, rfl⟩

/-- The nodes that were expanded before are taken from the queue one by one. -/
theorem drains_of_pending {queue visits : List Nat} {e e' : Expansion}
    (h : Drains c histories residual (e.pending c residual queue) e visits e') :
    Drains c histories residual queue e visits e' := by
  induction queue with
  | nil =>
    by_cases hnone : e.missing c residual = []
    · rwa [show e.pending c residual [] = [] from hnone] at h
    · exact .refill hnone h
  | cons s rest ih =>
    unfold pending at h ih
    by_cases hseen : s ∈ e.visited
    · rw [List.dropWhile_cons_of_pos (by simpa using hseen)] at h
      exact .skip hseen (ih h)
    · rwa [List.dropWhile_cons_of_neg (by simpa using hseen)] at h

/-- The expansion of one node visits no other. -/
theorem visited_expand (queue : List Nat) (s : Nat) (e : Expansion) :
    (expand c histories queue s e).1.visited = e.visited := by
  unfold expand
  cases c.kind s with
  | simple | final | parallel => rfl
  | compound =>
    dsimp only
    split
    · rfl
    · cases c.defaultTransition? s <;> rfl
  | history depth =>
    dsimp only
    split
    · rfl
    · cases (c.node s).transitions.head? <;> rfl
  | initial =>
    dsimp only
    cases (c.node s).transitions.head? <;> rfl

theorem drains_of_pending_nil {queue : List Nat} {e : Expansion}
    (h : e.pending c residual queue = []) : Drains c histories residual queue e [] e := by
  have hnone : e.missing c residual = [] := by
    unfold pending at h
    split at h
    · exact h
    · next hsome => exact absurd h hsome
  refine drains_of_pending ?_
  rw [h]
  exact .done hnone

/-- What waits and what was visited are nodes, and what was reached has no children. -/
structure Placed (c : Chart) (queue : List Nat) (e : Expansion) : Prop where
  waiting : ∀ q ∈ queue, q < c.nodes.size
  visited : ∀ v ∈ e.visited, v < c.nodes.size
  atomic : c.AllAtomic e.targets

theorem Placed.pending (hw : c.WellFormed) {queue : List Nat} {e : Expansion}
    (h : Placed c queue e) : Placed c (e.pending c residual queue) e :=
  { h with waiting := pending_lt_size hw h.waiting e }

/-- To visit a node leaves one node less to visit. -/
theorem Placed.visit (hw : c.WellFormed) (hh : histories.Known c) {s : Nat} {queue next : List Nat}
    {e e' : Expansion} (h : Placed c (s :: queue) e)
    (hexpand : expand c histories queue s { e with visited := e.visited.insert s } = (e', next)) :
    Placed c (queue ++ next) e' ∧ e'.visited = e.visited.insert s := by
  have hs : s < c.nodes.size := h.waiting s (by simp)
  have hvisited : (expand c histories queue s { e with visited := e.visited.insert s }).1.visited =
      e.visited.insert s := visited_expand queue s _
  obtain ⟨hatomic, hnext⟩ := expand_atomic hw (fun h states hget => (hh h states hget).2) queue hs
    (show c.AllAtomic ({ e with visited := e.visited.insert s } : Expansion).targets from h.atomic)
  rw [hexpand] at hvisited hatomic hnext
  refine ⟨⟨?_, ?_, hatomic⟩, hvisited⟩
  · intro x hx
    rcases List.mem_append.1 hx with hx | hx
    · exact h.waiting x (List.mem_cons_of_mem s hx)
    · exact hnext x hx
  · intro v hv
    rw [hvisited] at hv
    rcases StateSet.mem_insert.1 hv with rfl | hv
    · exact hs
    · exact h.visited v hv

/-- Where histories remember nodes only, as many steps as there are nodes left to visit are enough
for the work, and it visits none of them twice. -/
theorem drains_drain (hw : c.WellFormed) (hh : histories.Known c) (steps : Nat)
    {queue : List Nat} {e : Expansion} (h : Placed c queue e)
    (henough : c.nodes.size ≤ steps + e.visited.size) :
    ∃ visits,
      Drains c histories residual queue e visits (drain c histories residual steps queue e) ∧
      visits.Nodup ∧ ∀ s ∈ visits, s < c.nodes.size ∧ s ∉ e.visited := by
  induction steps generalizing queue e with
  | zero =>
    refine ⟨[], ?_, .nil, fun s hs => absurd hs List.not_mem_nil⟩
    have hpending : ∀ q ∈ e.pending c residual queue, q < c.nodes.size := (h.pending hw).waiting
    cases hrest : e.pending c residual queue with
    | nil => exact drains_of_pending_nil hrest
    | cons s rest =>
      -- Every node has been visited.
      rw [Nat.zero_add] at henough
      exact absurd (StateSet.mem_of_le_size h.visited henough (hpending s (by simp [hrest])))
        (not_mem_visited_of_pending hw hrest)
  | succ steps ih =>
    rw [drain]
    split
    · next hnone =>
      exact ⟨[], drains_of_pending_nil hnone, .nil, fun s hs => absurd hs List.not_mem_nil⟩
    · next s rest hrest =>
      have hnew : s ∉ e.visited := not_mem_visited_of_pending hw hrest
      have hplaced : Placed c (e.pending c residual queue) e := h.pending hw
      rw [hrest] at hplaced
      obtain ⟨e', next, hexpand⟩ : ∃ e' next, expand c histories rest s
        { e with visited := e.visited.insert s } = (e', next) := ⟨_, _, rfl⟩
      obtain ⟨hplaced', hvisited⟩ := hplaced.visit hw hh hexpand
      have henough' : c.nodes.size ≤ steps + e'.visited.size := by
        rw [hvisited, StateSet.size_insert hnew]
        omega
      obtain ⟨visits, hdrains, hnodup, hvisits⟩ := ih hplaced' henough'
      rw [hvisited] at hvisits
      rw [hexpand]
      refine ⟨s :: visits, ?_, List.nodup_cons.2 ⟨?_, hnodup⟩, List.forall_mem_cons.2
        ⟨⟨hplaced.waiting s (by simp), hnew⟩, ?_⟩⟩
      · refine drains_of_pending ?_
        rw [hrest]
        exact .visit hnew hexpand hdrains
      · exact fun hmem => (hvisits s hmem).2 (StateSet.mem_insert.2 (.inl rfl))
      · exact fun x hx => ⟨(hvisits x hx).1,
          fun hseen => (hvisits x hx).2 (StateSet.mem_insert.2 (.inr hseen))⟩

end Expansion

/-- The expansion of `seeds` comes to an end, at `e`, and visits no node twice. -/
def Chart.ExpandsOnce (c : Chart) (histories : Histories) (seeds : List Nat) (residual : StateSet)
    (e : Expansion) : Prop :=
  ∃ visits : List Nat, visits.Nodup ∧ (∀ s ∈ visits, s < c.nodes.size) ∧
    ∀ visits' e', Expansion.Drains c histories residual seeds .empty visits' e' ↔
      visits' = visits ∧ e' = e

theorem Chart.expandsOnce_expand {c : Chart} (hw : c.WellFormed) {histories : Histories}
    (hh : histories.Known c) {seeds : List Nat} (hseeds : ∀ q ∈ seeds, q < c.nodes.size)
    (residual : StateSet) :
    c.ExpandsOnce histories seeds residual (c.expand histories seeds residual) := by
  have hplaced : Expansion.Placed c seeds .empty :=
    ⟨hseeds, fun v hv => absurd hv (StateSet.not_mem_empty v), c.allAtomic_empty⟩
  obtain ⟨visits, hdrains, hnodup, hvisits⟩ :=
    Expansion.drains_drain hw hh c.nodes.size hplaced (Nat.le_add_right _ _)
  refine ⟨visits, hnodup, fun s hs => (hvisits s hs).1, fun visits' e' => ⟨hdrains.unique, ?_⟩⟩
  rintro ⟨rfl, rfl⟩
  exact hdrains

namespace Interpreter

variable {σ : Type}

/-- A macrostep as it goes on from a run, after `made` microsteps that count: how many of them it
comes to, and what comes of it. -/
inductive Loops (m : Interpreter σ) : Nat → Run σ → Nat → Outcome × Run σ → Prop where
  | exhausted {made : Nat} {r : Run σ} (h : m.config.maxMicrosteps ≤ made) :
    Loops m made r made (.ok [], m.exhausted r)
  | failed {made : Nat} {r s : Run σ} {e : StepError} (h : made < m.config.maxMicrosteps)
    (hround : m.round r = .failed e s) : Loops m made r made (.error e, s)
  | moved {made total : Nat} {r s : Run σ} {step : Step} {out : Outcome × Run σ}
    (h : made < m.config.maxMicrosteps) (hround : m.round r = .moved step s)
    (rest : Loops m (made + 1) s total out) :
    Loops m made r total (out.1.map (m.summaryOf step ++ ·), out.2)
  | settled {made : Nat} {r s : Run σ} (h : made < m.config.maxMicrosteps)
    (hround : m.round r = .idle s) (hnone : (m.startInvokes s).session.internal = []) :
    Loops m made r made (.ok [], m.settled (m.startInvokes s))
  | resumed {made total : Nat} {r s : Run σ} {out : Outcome × Run σ}
    (h : made < m.config.maxMicrosteps) (hround : m.round r = .idle s)
    (hsome : (m.startInvokes s).session.internal ≠ [])
    (rest : Loops m made (m.startInvokes s) total out) : Loops m made r total out

/-- The same of a macrostep from its first microstep on. -/
inductive Completes (m : Interpreter σ) :
    Except StepError Step × Run σ → Nat → Outcome × Run σ → Prop where
  | failed (e : StepError) (r : Run σ) : Completes m (.error e, r) 0 (.error e, m.stop r)
  | looped {step : Step} {r : Run σ} {total : Nat} {out : Outcome × Run σ}
    (h : m.Loops 0 r total out) :
    Completes m (.ok step, r) total (m.conclude (out.1.map (m.summaryOf step ++ ·), out.2))

/-- An operation as it goes: how many microsteps it makes that count, and what comes of it. -/
inductive Returns (m : Interpreter σ) : Operation → Run σ → Nat → Outcome × Run σ → Prop where
  | went {r : Run σ} {total : Nat} {out : Outcome × Run σ}
    (h : m.Completes (m.initialStep (m.ready r)) total out) : Returns m .go r total out
  | reset (r : Run σ) : Returns m .reset r 0 (.ok [], m.reset r)
  | stopped (r : Run σ) : Returns m .stop r 0 (.ok [], m.stop r)
  | ignored {event : Event} {r : Run σ} (h : r.session.running = false) :
    Returns m (.trigger event) r 0 (.ok [], r)
  | cancelled {event : Event} {r : Run σ} (h : r.session.running = true)
    (hkind : event.kind = .cancel) : Returns m (.trigger event) r 0 (.ok [], m.stop r)
  | processed {event : Event} {r : Run σ} {total : Nat} {out : Outcome × Run σ}
    (h : r.session.running = true) (hkind : event.kind ≠ .cancel)
    (hfirst : m.Completes (m.microstep (some event) r) total out) :
    Returns m (.trigger event) r total out

section Loops

open Stage (counted)

variable {m : Interpreter σ}

/-- A round that finds an event waiting has something to do. -/
theorem round_ne_idle {r s : Run σ} (h : r.session.internal ≠ []) : m.round r ≠ .idle s := by
  intro hidle
  obtain ⟨hselect, hnone⟩ := m.round_idle hidle
  have hsession : (m.selectFor none r).2.session = r.session.bindEvent none :=
    m.session_select _ _ _
  rw [hselect] at hsession
  rw [hsession] at hnone
  exact h hnone

/-- If the services that are started leave an event, the macrostep goes on as if it began there. -/
theorem serve_of_internal (budget : Nat) {r : Run σ}
    (h : (m.startInvokes r).session.internal ≠ []) :
    m.serve budget r = m.settle (budget + 1) (m.startInvokes r) ∧
      m.countServed budget r = counted (m.settleCourse (budget + 1) (m.startInvokes r)) := by
  rw [settle_succ, counted_settleCourse_succ]
  unfold serve countServed
  dsimp only
  rw [if_neg (by simpa using h), if_neg (by simpa using h)]
  cases hround : m.round (m.startInvokes r) with
  | failed e s => exact ⟨rfl, rfl⟩
  | moved step s => exact ⟨rfl, rfl⟩
  | idle s => exact absurd hround (round_ne_idle h)

/-- If they leave none, the macrostep has settled. -/
theorem serve_of_nil (budget : Nat) {r : Run σ} (h : (m.startInvokes r).session.internal = []) :
    m.serve budget r = (.ok [], m.settled (m.startInvokes r)) ∧ m.countServed budget r = 0 := by
  simp [serve, countServed, h]

/-- With as much budget as the ceiling leaves, the macrostep comes to what its loop comes to. -/
theorem loops_settle (budget : Nat) {made : Nat} {r : Run σ}
    (hbudget : made + budget = m.config.maxMicrosteps) :
    m.Loops made r (made + counted (m.settleCourse budget r)) (m.settle budget r) := by
  induction budget generalizing made r with
  | zero => exact .exhausted (by omega)
  | succ budget ih =>
    have hlt : made < m.config.maxMicrosteps := by omega
    -- First the rounds that find something to do.
    have hbusy : ∀ s : Run σ, (∀ t, m.round s ≠ .idle t) →
        m.Loops made s (made + counted (m.settleCourse (budget + 1) s))
          (m.settle (budget + 1) s) := by
      intro s hs
      rw [settle_succ, counted_settleCourse_succ]
      cases hround : m.round s with
      | failed e t => exact .failed hlt hround
      | moved step t =>
        have hbudget' : made + 1 + budget = m.config.maxMicrosteps := by omega
        have hrest := ih (r := t) hbudget'
        rw [Nat.add_assoc] at hrest
        exact .moved hlt hround hrest
      | idle t => exact absurd hround (hs t)
    cases hround : m.round r with
    | failed e s => exact hbusy r (fun t => by simp [hround])
    | moved step s => exact hbusy r (fun t => by simp [hround])
    | idle s =>
      rw [settle_succ, counted_settleCourse_succ, hround]
      dsimp only [pursue, countPursued]
      by_cases hnone : (m.startInvokes s).session.internal = []
      · obtain ⟨hserve, hcount⟩ := serve_of_nil budget hnone
        rw [hserve, hcount]
        exact .settled hlt hround hnone
      · obtain ⟨hserve, hcount⟩ := serve_of_internal budget hnone
        rw [hserve, hcount]
        exact .resumed hlt hround hnone (hbusy _ (fun t => round_ne_idle hnone))

/-- The loop of a macrostep comes to what it comes to with as much budget as the ceiling leaves. -/
theorem Loops.eq {made total : Nat} {r : Run σ} {out : Outcome × Run σ}
    (h : m.Loops made r total out) {budget : Nat}
    (hbudget : made + budget = m.config.maxMicrosteps) :
    total = made + counted (m.settleCourse budget r) ∧ out = m.settle budget r := by
  induction h generalizing budget with
  | exhausted h =>
    obtain rfl : budget = 0 := by omega
    exact ⟨rfl, rfl⟩
  | failed h hround =>
    obtain ⟨budget, rfl⟩ := Nat.exists_eq_add_one_of_ne_zero (show budget ≠ 0 by omega)
    rw [settle_succ, counted_settleCourse_succ, hround]
    exact ⟨rfl, rfl⟩
  | moved h hround _ ih =>
    obtain ⟨budget, rfl⟩ := Nat.exists_eq_add_one_of_ne_zero (show budget ≠ 0 by omega)
    obtain ⟨htotal, hout⟩ := ih (show _ + 1 + budget = m.config.maxMicrosteps by omega)
    rw [settle_succ, counted_settleCourse_succ, hround, htotal, hout, Nat.add_assoc]
    exact ⟨rfl, rfl⟩
  | settled h hround hnone =>
    obtain ⟨budget, rfl⟩ := Nat.exists_eq_add_one_of_ne_zero (show budget ≠ 0 by omega)
    obtain ⟨hserve, hcount⟩ := serve_of_nil budget hnone
    rw [settle_succ, counted_settleCourse_succ, hround]
    dsimp only [pursue, countPursued]
    rw [hserve, hcount]
    exact ⟨rfl, rfl⟩
  | resumed h hround hsome _ ih =>
    obtain ⟨budget, rfl⟩ := Nat.exists_eq_add_one_of_ne_zero (show budget ≠ 0 by omega)
    obtain ⟨hserve, hcount⟩ := serve_of_internal budget hsome
    rw [settle_succ, counted_settleCourse_succ, hround]
    dsimp only [pursue, countPursued]
    rw [hserve, hcount]
    exact ih hbudget

/-- The loop does not go beyond the ceiling. -/
theorem Loops.le {made total : Nat} {r : Run σ} {out : Outcome × Run σ}
    (h : m.Loops made r total out) (hmade : made ≤ m.config.maxMicrosteps) :
    total ≤ m.config.maxMicrosteps := by
  induction h with
  | exhausted _ => exact hmade
  | failed _ _ => exact hmade
  | moved h _ _ ih => exact ih h
  | settled _ _ _ => exact hmade
  | resumed _ _ _ _ ih => exact ih hmade

theorem length_summaryOf (m : Interpreter σ) (step : Step) : (m.summaryOf step).length ≤ 1 := by
  unfold summaryOf
  split <;> simp

/-- Every summary is that of a microstep that counts. -/
theorem Loops.length_le {made total : Nat} {r : Run σ} {out : Outcome × Run σ}
    (h : m.Loops made r total out) {summaries : List Summary} (hout : out.1 = .ok summaries) :
    made + summaries.length ≤ total := by
  induction h generalizing summaries with
  | exhausted _ =>
    cases hout
    exact Nat.le_refl _
  | failed _ _ => cases hout
  | @moved made total r s step out _ _ _ ih =>
    obtain ⟨result, t⟩ := out
    cases result with
    | error e => cases hout
    | ok rest =>
      cases hout
      have hrest := ih rfl
      have hone := length_summaryOf m step
      rw [List.length_append]
      omega
  | settled _ _ _ =>
    cases hout
    exact Nat.le_refl _
  | resumed _ _ _ _ ih => exact ih hout

/-- An operation whose first microstep does not count comes to what its loop comes to. -/
theorem completes_iff {cause : Cause} {before : Run σ}
    (hcause : ∀ step s, (Stage.moved ⟨cause, before, step, s⟩).counts = false)
    {first : Except StepError Step × Run σ} {total : Nat} {out : Outcome × Run σ} :
    m.Completes first total out ↔
      total = counted (m.completeCourse cause before first) ∧ out = m.complete first := by
  obtain ⟨result, s⟩ := first
  cases result with
  | error e =>
    refine ⟨fun h => ?_, ?_⟩
    · cases h
      exact ⟨rfl, rfl⟩
    · rintro ⟨rfl, rfl⟩
      exact .failed e s
  | ok step =>
    have hcount : counted (m.completeCourse cause before (.ok step, s)) =
        counted (m.settleCourse m.config.maxMicrosteps s) :=
      Stage.counted_cons_of_not (hcause step s) _
    rw [hcount, complete_ok]
    refine ⟨fun h => ?_, ?_⟩
    · cases h with
      | looped h =>
        obtain ⟨htotal, rfl⟩ := h.eq (Nat.zero_add _)
        exact ⟨htotal.trans (Nat.zero_add _), rfl⟩
    · rintro ⟨rfl, rfl⟩
      have hloops := loops_settle (m := m) m.config.maxMicrosteps (r := s) (Nat.zero_add _)
      rw [Nat.zero_add] at hloops
      exact .looped hloops

theorem returns_iff {operation : Operation} {r : Run σ} {total : Nat} {out : Outcome × Run σ} :
    m.Returns operation r total out ↔
      total = m.microstepsOf operation r ∧ out = m.operate operation r := by
  cases operation with
  | go =>
    have hcount : m.microstepsOf .go r =
        counted (m.completeCourse .start (m.ready r) (m.initialStep (m.ready r))) :=
      Stage.counted_cons_of_not rfl _
    rw [hcount, show m.operate .go r = m.complete (m.initialStep (m.ready r)) from rfl,
      ← completes_iff (fun _ _ => rfl)]
    exact ⟨fun h => by cases h; assumption, .went⟩
  | reset =>
    refine ⟨fun h => by cases h; exact ⟨rfl, rfl⟩, ?_⟩
    rintro ⟨rfl, rfl⟩
    exact .reset r
  | stop =>
    refine ⟨fun h => by cases h; exact ⟨rfl, rfl⟩, ?_⟩
    rintro ⟨rfl, rfl⟩
    exact .stopped r
  | trigger event =>
    simp only [microstepsOf, operate, trigger, operateCourse]
    split
    · next hrunning =>
      have hstopped : r.session.running = false := by simpa using hrunning
      refine ⟨fun h => ?_, ?_⟩
      · cases h with
        | ignored _ => exact ⟨rfl, rfl⟩
        | cancelled hruns _ => simp [hstopped] at hruns
        | processed hruns _ _ => simp [hstopped] at hruns
      · rintro ⟨rfl, rfl⟩
        exact .ignored hstopped
    · next hrunning =>
      have hruns : r.session.running = true := by simpa using hrunning
      split
      · next hkind =>
        refine ⟨fun h => ?_, ?_⟩
        · cases h with
          | ignored hstopped => simp [hruns] at hstopped
          | cancelled _ _ => exact ⟨rfl, rfl⟩
          | processed _ hother _ => exact absurd hkind hother
        · rintro ⟨rfl, rfl⟩
          exact .cancelled hruns hkind
      · next hkind =>
        rw [← completes_iff (fun _ _ => rfl)]
        refine ⟨fun h => ?_, .processed hruns hkind⟩
        cases h with
        | ignored hstopped => simp [hruns] at hstopped
        | cancelled _ hcancel => exact absurd hcancel hkind
        | processed _ _ h => exact h

theorem Completes.le {first : Except StepError Step × Run σ} {total : Nat} {out : Outcome × Run σ}
    (h : m.Completes first total out) : total ≤ m.config.maxMicrosteps := by
  cases h with
  | failed e r => exact Nat.zero_le _
  | looped h => exact h.le (Nat.zero_le _)

theorem Completes.length_le {first : Except StepError Step × Run σ} {total : Nat}
    {out : Outcome × Run σ} (h : m.Completes first total out) {summaries : List Summary}
    (hout : out.1 = .ok summaries) : summaries.length ≤ total + 1 := by
  cases h with
  | failed e r => cases hout
  | @looped step r _ out h =>
    obtain ⟨result, t⟩ := out
    cases result with
    | error e => cases hout
    | ok rest =>
      cases hout
      have hrest := h.length_le rfl
      have hone := length_summaryOf m step
      rw [List.length_append]
      omega

/-- Besides those that count there is one microstep at most that is told of. -/
theorem Returns.bounds {operation : Operation} {r : Run σ} {total : Nat} {out : Outcome × Run σ}
    (h : m.Returns operation r total out) : total ≤ m.config.maxMicrosteps ∧
      ∀ summaries, out.1 = .ok summaries → summaries.length ≤ total + 1 := by
  cases h with
  | went h => exact ⟨h.le, fun _ => h.length_le⟩
  | processed _ _ h => exact ⟨h.le, fun _ => h.length_le⟩
  | reset | stopped | ignored | cancelled =>
    refine ⟨Nat.zero_le _, fun summaries hout => ?_⟩
    cases hout
    exact Nat.zero_le _

end Loops

/-- The expansion that a microstep plans with comes to an end and visits no node twice. -/
def PlansOnce (m : Interpreter σ) : Attempt σ → Prop
  | .start r => m.chart.ExpandsOnce r.session.histories m.chart.initial ∅
      (m.chart.planStart r.session.histories).expansion
  | .step event r =>
    let (ts, s) := m.selectFor event r
    let staying := m.chart.staying s.session.status.states ts
    m.chart.ExpandsOnce s.session.histories (m.chart.seeds staying ts) staying
      (m.planFor ts s).expansion

theorem plansOnce_of_known {m : Interpreter σ} (hw : m.chart.WellFormed) {attempt : Attempt σ}
    (h : attempt.before.session.Known m.chart) : m.PlansOnce attempt := by
  cases attempt with
  | start r => exact Chart.expandsOnce_expand hw h.histories (fun _ hq => hw.initial_lt hq) ∅
  | step event r =>
    have hselected : (m.selectFor event r).2.session.Known m.chart :=
      (m.acts_selectFor event r).known { h with }
    exact Chart.expandsOnce_expand hw hselected.histories (Chart.seeds_lt_size hw _ _) _

/-- Every operation returns, on every session whose numbers are those of nodes: its loops come to an
end, at what the operation comes to. Until then it makes no more microsteps that count than the
ceiling allows and tells of one microstep more at most; and each of its microsteps, also one that
fails, plans with an expansion that comes to an end and visits no node twice. -/
theorem operate_returns {m : Interpreter σ} {o : Outline} (hbuild : o.build = .ok m.chart)
    (operation : Operation) {r : Run σ} (hr : r.session.Known m.chart) :
    (∀ total out, m.Returns operation r total out ↔
      total = m.microstepsOf operation r ∧ out = m.operate operation r) ∧
    m.microstepsOf operation r ≤ m.config.maxMicrosteps ∧
    (∀ summaries, (m.operate operation r).1 = .ok summaries →
      summaries.length ≤ m.config.maxMicrosteps + 1) ∧
    ∀ attempt ∈ m.operateAttempts operation r, m.PlansOnce attempt := by
  obtain ⟨hw, -⟩ := Outline.wellFormed_of_build hbuild
  have hreturns : m.Returns operation r (m.microstepsOf operation r) (m.operate operation r) :=
    returns_iff.2 ⟨rfl, rfl⟩
  obtain ⟨hmade, htold⟩ := hreturns.bounds
  refine ⟨fun _ _ => returns_iff, hmade, ?_, ?_⟩
  · intro summaries hok
    exact (htold summaries hok).trans (Nat.add_le_add_right hmade 1)
  · intro attempt hattempt
    apply plansOnce_of_known hw
    rcases (invariant_known hw).lasts.before_operateAttempts operation hr attempt hattempt with
      hready | hknown
    · rw [hready]
      exact { (m.sound_reset r).1 with }
    · exact hknown

end Interpreter

/-- Two states that lead to each other for no reason. -/
def Outline.pendulum : Outline where
  name := none
  datamodel := none
  initial := []
  states := [
    .mk (.named "left" .plain [] [⟨[], none, ["right"], .external, []⟩]) [],
    .mk (.named "right" .plain [] [⟨[], none, ["left"], .external, []⟩]) []]
  data := []

theorem Outline.build_pendulum : Outline.pendulum.build = .ok Outline.pendulum.chart :=
  build_eq_ok rfl (by decide +kernel) (by decide +kernel)

namespace Interpreter

/-- A pendulum that is stopped after three swings. -/
def pendulum : Interpreter Unit :=
  ⟨Outline.pendulum.chart, .minimal, .silent, { Config.default with maxMicrosteps := 3 }⟩

/-- The pendulum swings three times, and this is told in four summaries. -/
theorem operate_returns_pendulum :
    let r := Run.new secondId ()
    pendulum.Returns .go r 3 (pendulum.operate .go r) ∧
      ∃ summaries, (pendulum.operate .go r).1 = .ok summaries ∧ summaries.length = 4 := by
  intro r
  obtain ⟨hreturns, -⟩ := operate_returns Outline.build_pendulum .go (m := pendulum) (r := r)
    (known_new pendulum.chart secondId)
  refine ⟨(hreturns _ _).2 ⟨by decide +kernel, rfl⟩, ?_⟩
  have htold : (pendulum.operate .go r).1.toOption.map List.length = some 4 := by decide +kernel
  cases hout : (pendulum.operate .go r).1 with
  | error e => simp [hout, Except.toOption] at htold
  | ok summaries => exact ⟨summaries, rfl, by simpa [hout, Except.toOption] using htold⟩

end Interpreter

end Statechart
