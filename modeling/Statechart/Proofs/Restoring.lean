import Mathlib.Data.List.TakeWhile
import Statechart.Proofs.Accepting
import Statechart.Proofs.Moves
import Statechart.Proofs.Resume

/-!
Histories restore. What a history remembers of its state when that is left is still there when
a transition leads back to it, all of it is reached then, and nothing else fits beside it: below
the state the configuration is the one that was left. A session that was loaded from a snapshot is
no exception as long as its histories remember what they could have recorded themselves.
-/

namespace Statechart

namespace Chart

variable {c : Chart} {A B : StateSet}

/-- A legal set that holds all states without children that another has below `b` holds nothing
else below `b`. -/
theorem WellFormed.mem_of_atomic_subset (hw : c.WellFormed) (hA : c.Legal A) (hB : c.Legal B)
    {b : Nat} (hb : b ∈ A)
    (hsub : ∀ x ∈ A, c.isAtomic x = true → c.Below x b → x ∈ B) {y : Nat} (hy : y ∈ B)
    (hbelow : c.Below y b) : y ∈ A := by
  -- From `b` downward: parents have smaller numbers than their children.
  induction y using Nat.strong_induction_on with
  | _ y ih =>
    obtain ⟨p, hp, hpb⟩ := hw.exists_parent_of_below hbelow
    have hpB := hB.upward hy hp
    have hpA : p ∈ A := by
      rcases within_iff.1 hpb with rfl | hpb
      · exact hb
      · exact ih p (hw.parent_lt hp) hpB hpb
    obtain ⟨x, hx, hxA⟩ := hw.exists_child_of_legal hA hpA (hw.parent_composite hp)
    -- The atomic states within an active child of `p` lead from the one set to the other.
    obtain ⟨a, haA, hatomic, hax⟩ := hw.exists_atomic_of_legal hA hxA
    have hap := hw.below_of_within_child (hw.mem_children.1 hx).1 hax
    have haB := hsub a haA hatomic (hw.below_of_below_of_within hap hpb)
    apply hw.mem_of_shared hA hB hy haA haB
    rintro q hq
    obtain rfl := Option.some.inj (hp.symm.trans hq)
    exact hap

end Chart

namespace Expansion

variable {c : Chart} {histories : Histories}

/-- What the histories expanded so far recall was expanded or waits. -/
def Recalling (c : Chart) (histories : Histories) (queue : List Nat) (e : Expansion) : Prop :=
  ∀ h ∈ e.visited, c.IsHistory h → ∀ x ∈ c.recalled histories h, x ∈ e.visited ∨ x ∈ queue

theorem Expands.next_of_history {queue next : List Nat} {s : Nat} {e e' : Expansion}
    (h : Expands c histories queue s e e' next) (hs : c.IsHistory s) :
    next = c.recalled histories s := by
  obtain ⟨depth, hk⟩ := hs
  cases h with
  | atomic hatomic =>
    rw [Chart.isAtomic, hk] at hatomic
    cases hatomic
  | entered hcompound =>
    rw [hk] at hcompound
    cases hcompound
  | entry hcompound =>
    rw [hk] at hcompound
    cases hcompound
  | regions hparallel =>
    rw [hk] at hparallel
    cases hparallel
  | history => rfl

theorem keptByDrain_recalling (hw : c.WellFormed) (hc : c.Checked) (hp : c.Direct)
    (hr : c.RecallsBelow histories) (residual : StateSet) {seeds : List Nat} :
    KeptByDrain c histories residual seeds
      (fun queue e => Supported c seeds queue e ∧ Recalling c histories queue e) where
  supported := And.left
  drop := by
    rintro queue e ⟨hsupported, hrecalling⟩
    refine ⟨hsupported.dropWhile hw, ?_⟩
    intro h hv hh x hx
    rcases hrecalling h hv hh x hx with hx | hx
    · exact .inl hx
    · -- What is dropped has been expanded.
      by_cases hxv : x ∈ e.visited
      · exact .inl hxv
      · refine .inr ?_
        rw [← List.takeWhile_append_dropWhile (p := fun s => decide (s ∈ e.visited)) (l := queue),
          List.mem_append] at hx
        exact hx.resolve_left (fun hx => hxv (by simpa using List.mem_takeWhile_imp hx))
  missing := by
    rintro e ⟨hsupported, hrecalling⟩
    refine ⟨(keptByDrain_supported hw hc hp hr residual).missing hsupported, ?_⟩
    intro h hv hh x hx
    exact .inl ((hrecalling h hv hh x hx).resolve_right List.not_mem_nil)
  expand := by
    rintro q queue e ⟨hsupported, hrecalling⟩ hnew
    obtain ⟨hvisited, hexpands⟩ := expands_expand hw histories queue
      { e with visited := e.visited.insert q } (hsupported.leading q (by simp))
    refine ⟨(keptByDrain_supported hw hc hp hr residual).expand hsupported hnew, ?_⟩
    intro h hv hh x hx
    simp only [hvisited, StateSet.mem_insert, List.mem_append] at hv ⊢
    rcases hv with rfl | hv
    · rw [hexpands.next_of_history hh]
      exact .inr (.inr hx)
    · rcases hrecalling h hv hh x hx with hx | hx
      · exact .inl (.inr hx)
      · rcases List.mem_cons.1 hx with rfl | hx
        · exact .inl (.inl rfl)
        · exact .inr (.inl hx)

/-- When nothing is left to expand, something has been reached within everything that a history
on the way recalls. -/
theorem reached_of_recalled (hw : c.WellFormed) (hc : c.Checked) (hp : c.Direct)
    (hr : c.RecallsBelow histories) (residual : StateSet) {seeds : List Nat}
    (hseeds : Supported c seeds seeds .empty) {h x : Nat} (hh : c.IsHistory h) (hmem : h ∈ seeds)
    (hx : x ∈ c.recalled histories h) :
    ∃ f ∈ (c.expand histories seeds residual).targets, c.Within f x := by
  have hstart : Recalling c histories seeds .empty :=
    fun v hv => absurd hv (StateSet.not_mem_empty v)
  obtain ⟨hsupported, hrecalling⟩ := ((keptByDrain_recalling hw hc hp hr residual).drain hw
    c.nodes.size seeds .empty ⟨hseeds, hstart⟩ (by omega)).1
  have hvisited := (hsupported.kept h hmem).resolve_right List.not_mem_nil
  have hxvisited := (hrecalling h hvisited hh x hx).resolve_right List.not_mem_nil
  obtain ⟨p, hparent⟩ := hw.pseudo_parent hh.isPseudo
  exact mem_closure_of_supported hsupported hxvisited ((hr h p hh hparent).2 x hx).1.2

end Expansion

namespace Interpreter

variable {σ : Type} {m : Interpreter σ}

/-- What a history remembers after a move. -/
theorem Goes.get?_histories (hw : m.chart.WellFormed) {move : Move σ} (h : m.Goes move)
    {x b : Nat} {depth : HistoryDepth} (hx : m.chart.kind x = .history depth)
    (hb : m.chart.parent x = some b) :
    move.after.session.histories.get? x =
      if b ∈ move.step.exitList then
        some (Histories.remembered m.chart b depth move.before.session.status)
      else move.before.session.histories.get? x := by
  have hcarries : ∀ {plan : Plan}, m.Carries move plan → move.after.session.histories.get? x =
      if b ∈ move.step.exitList then
        some (Histories.remembered m.chart b depth move.before.session.status)
      else move.before.session.histories.get? x := by
    intro plan h
    rw [h.histories, h.exits]
    exact get?_recordAll hw hx hb _ _ _
  cases h with
  | idle _ hexits _ hsame =>
    rw [hexits, hsame.histories]
    simp
  | fired _ _ _ h => exact hcarries h
  | entered _ _ h => exact hcarries h

/-- A history keeps what it remembers as long as its state is not left. -/
theorem Passes.get?_histories (hw : m.chart.WellFormed) {r t : Run σ} {stages : List (Stage σ)}
    (h : m.Passes r stages t) {x b : Nat} {depth : HistoryDepth}
    (hx : m.chart.kind x = .history depth) (hb : m.chart.parent x = some b)
    (hkept : ∀ stage ∈ stages, ∃ move, stage = .moved move ∧ b ∉ move.step.exitList) :
    t.session.histories.get? x = r.session.histories.get? x := by
  induction h with
  | done r => rfl
  | acts h _ ih => rw [ih hkept, h.histories]
  | publishPending _ ih => exact ih hkept
  | halt _ ih => exact ih hkept
  | @moved move t stages h _ _ ih =>
    obtain ⟨_, ⟨rfl⟩, hstays⟩ := hkept (.moved move) (by simp)
    rw [ih (fun stage hstage => hkept stage (List.mem_cons_of_mem _ hstage)),
      (h.goes hw).get?_histories hw hx hb, if_neg hstays]
  | reset _ _ =>
    obtain ⟨_, hmoved, -⟩ := hkept .cleared (by simp)
    cases hmoved
  | go _ _ _ =>
    obtain ⟨_, hmoved, -⟩ := hkept .cleared (by simp)
    cases hmoved

theorem recalled_of_get? {c : Chart} {histories : Histories} {x : Nat} {states : StateSet}
    (hget : histories.get? x = some states) (hne : ∃ y, y ∈ states) :
    c.recalled histories x = states.members := by
  have hsome : states.isEmpty = false := by
    obtain ⟨y, hy⟩ := hne
    rw [StateSet.isEmpty, Bool.eq_false_iff, ne_eq, List.isEmpty_iff]
    exact List.ne_nil_of_mem hy
  simp [Chart.recalled, hget, Option.filter, hsome]

/-- After a move from a regular run the closure of what its plan says is active. -/
theorem active_of_fired (hw : m.chart.WellFormed) (hc : m.chart.Checked) (hp : m.chart.Plain)
    (hd : m.chart.DefaultsJoined) {move : Move σ} (hregular : Regular m.chart move.before)
    (hne : move.step.transitions ≠ [])
    (htogether : m.chart.FireTogether move.before.session.status.states move.step.transitions)
    (hcarries : m.Carries move (m.chart.plan move.before.session.histories
      move.before.session.status move.step.transitions)) :
    move.after.session.configuration.active =
      m.chart.closure (m.planFor move.step.transitions move.before).next.members := by
  have hmove := (fits_planFor hw hc hp hd hregular hne htogether).move rfl
  have hconf := (Prod.mk.inj (hcarries.configuration.symm.trans hmove)).2
  rw [hconf]

/-- A move that fires a transition to a history reaches everything that the history
remembers. -/
theorem mem_active_of_remembered (hw : m.chart.WellFormed) (hc : m.chart.Checked)
    (hp : m.chart.Plain) (hd : m.chart.DefaultsJoined) {move : Move σ} (h : m.Goes move)
    (hregular : Regular m.chart move.before) {t x : Nat} (ht : t ∈ move.step.transitions)
    (hx : x ∈ (m.chart.transition t).targets) (hhistory : m.chart.IsHistory x)
    {states : StateSet} (hget : move.before.session.histories.get? x = some states)
    (hne : ∃ y, y ∈ states) : ∀ y ∈ states, y ∈ move.after.session.configuration.active := by
  intro y hy
  cases h with
  | idle hnone _ _ _ =>
    rw [hnone] at ht
    cases ht
  | entered _ hnone _ =>
    rw [hnone] at ht
    cases ht
  | fired _ hfires htogether hcarries =>
    have hlegal : m.chart.Legal
        (m.chart.closure move.before.session.status.states.members) := by
      rw [← hregular.closure hw, hregular.all]
      exact hregular.legal
    have hseeds := Chart.seeds_supported hw hlegal htogether hc hp.direct
      (m.chart.staying move.before.session.status.states move.step.transitions)
    obtain ⟨f, hf, hfy⟩ := Expansion.reached_of_recalled hw hc hp.direct
      (hregular.remembers.recallsBelow hw hc hp) _ hseeds hhistory
      (Chart.mem_seeds_of_target ht hx) (by rw [recalled_of_get? hget hne]; exact hy)
    rw [active_of_fired hw hc hp hd hregular hfires htogether hcarries]
    exact hw.mem_closure.2 ⟨f, StateSet.mem_union.2 (.inr hf), hfy⟩

/-- What a history of the state `b` can bring back of what is active: the states without children
below `b` if it is deep, and the children of `b` if it is shallow. -/
def activeBelow (c : Chart) (depth : HistoryDepth) (b : Nat) (r : Run σ) : StateSet :=
  match depth with
  | .deep => (r.session.configuration.atomic c).filter (fun x => c.isDescendant x b)
  | .shallow => r.session.configuration.active.filter (fun x => decide (x ∈ c.children b))

theorem mem_activeBelow_deep {c : Chart} {b x : Nat} {r : Run σ} :
    x ∈ activeBelow c .deep b r ↔
      x ∈ r.session.configuration.active ∧ c.isAtomic x = true ∧ c.Below x b := by
  simp [activeBelow, Configuration.atomic, Chart.isDescendant_iff, and_assoc]

theorem mem_activeBelow_shallow {c : Chart} {b x : Nat} {r : Run σ} :
    x ∈ activeBelow c .shallow b r ↔
      x ∈ r.session.configuration.active ∧ x ∈ c.children b := by
  simp [activeBelow]

/-- In a regular run the histories of `b` remember what they can bring back. -/
theorem remembered_eq {c : Chart} {r : Run σ} (h : Regular c r) (depth : HistoryDepth) (b : Nat) :
    Histories.remembered c b depth r.session.status = activeBelow c depth b r := by
  apply StateSet.ext
  intro x
  cases depth with
  | deep => simp [Histories.remembered, activeBelow, h.states]
  | shallow => simp [Histories.remembered, activeBelow, h.all, and_comm]

/-- Below an active composite state there is something to bring back. -/
theorem exists_mem_activeBelow {c : Chart} (hw : c.WellFormed) {r : Run σ} (h : Regular c r)
    {b : Nat} (hb : b ∈ r.session.configuration.active) (hcomposite : c.IsComposite b)
    (depth : HistoryDepth) : ∃ x, x ∈ activeBelow c depth b r := by
  obtain ⟨x, hx, hxa⟩ := hw.exists_child_of_legal h.legal hb hcomposite
  cases depth with
  | shallow => exact ⟨x, mem_activeBelow_shallow.2 ⟨hxa, hx⟩⟩
  | deep =>
    obtain ⟨a, ha, hatomic, hax⟩ := hw.exists_atomic_of_legal h.legal hxa
    exact ⟨a, mem_activeBelow_deep.2
      ⟨ha, hatomic, hw.below_of_within_child (hw.mem_children.1 hx).1 hax⟩⟩

/-- If everything that can be brought back of `r` is active in `s`, then `r` and `s` agree
below `b`. -/
theorem activeBelow_eq (hw : m.chart.WellFormed) {r s : Run σ} (hr : Regular m.chart r)
    (hs : Regular m.chart s) {b : Nat} (hb : b ∈ r.session.configuration.active)
    (hcomposite : m.chart.IsComposite b) (depth : HistoryDepth)
    (hsub : ∀ y ∈ activeBelow m.chart depth b r, y ∈ s.session.configuration.active) :
    activeBelow m.chart depth b s = activeBelow m.chart depth b r := by
  obtain ⟨y, hy⟩ := exists_mem_activeBelow hw hr hb hcomposite depth
  apply StateSet.ext
  intro x
  cases depth with
  | deep =>
    have hatomic : ∀ x ∈ r.session.configuration.active, m.chart.isAtomic x = true →
        m.chart.Below x b → x ∈ s.session.configuration.active :=
      fun x hx hxa hxb => hsub x (mem_activeBelow_deep.2 ⟨hx, hxa, hxb⟩)
    rw [mem_activeBelow_deep, mem_activeBelow_deep]
    constructor
    · rintro ⟨hx, hxa, hxb⟩
      exact ⟨hw.mem_of_atomic_subset hr.legal hs.legal hb hatomic hx hxb, hxa, hxb⟩
    · rintro ⟨hx, hxa, hxb⟩
      exact ⟨hatomic x hx hxa hxb, hxa, hxb⟩
  | shallow =>
    obtain ⟨hyr, hyb⟩ := mem_activeBelow_shallow.1 hy
    rw [mem_activeBelow_shallow, mem_activeBelow_shallow]
    constructor
    · rintro ⟨hx, hxb⟩
      refine ⟨hw.mem_of_shared hr.legal hs.legal hx hyr (hsub y hy) ?_, hxb⟩
      intro p hp
      rw [Option.some.inj (hp.symm.trans (hw.mem_children.1 hxb).1)]
      exact hw.below_parent (hw.mem_children.1 hyb).1
    · rintro ⟨hx, hxb⟩
      exact ⟨hsub x (mem_activeBelow_shallow.2 ⟨hx, hxb⟩), hxb⟩

/-- What a move leaves was active. -/
theorem active_of_exited (hw : m.chart.WellFormed) (hc : m.chart.Checked) (hp : m.chart.Plain)
    (hd : m.chart.DefaultsJoined) {move : Move σ} (h : m.Goes move)
    (hregular : move.cause ≠ .start → Regular m.chart move.before) {b : Nat}
    (hb : b ∈ move.step.exitList) :
    move.cause ≠ .start ∧ b ∈ move.before.session.configuration.active := by
  cases h with
  | idle _ hnone _ _ =>
    rw [hnone] at hb
    cases hb
  | fired hcause hne htogether hcarries =>
    rw [hcarries.exits] at hb
    exact ⟨hcause, (fits_planFor hw hc hp hd (hregular hcause) hne htogether).exits hb⟩
  | entered _ _ hcarries =>
    rw [hcarries.exits] at hb
    cases hb

/-- A session that is brought back is regular if its histories remember what can be active inside
their states. -/
theorem regular_restore (hw : m.chart.WellFormed) (snap : Snapshot) (r : Run σ)
    (hremembers : m.chart.Remembers (m.restore snap r).2.session.histories) :
    Regular m.chart (m.restore snap r).2 := by
  cases hout : (m.restore snap r).1 with
  | some e =>
    obtain ⟨id, hsession⟩ := session_restore_fails hout
    refine .of_empty ?_ ?_ ?_ ?_ <;> rw [hsession] <;> rfl
  | none =>
    have hloaded := restore_eq_none.1 hout
    have hstatus := status_restore hout
    have hlegal : m.chart.Legal (m.restore snap r).2.session.configuration.active := by
      rw [session_restore hout, Snapshot.active_restoreInto hw hloaded]
      exact ((Snapshot.admissible_iff hw).2 (Snapshot.restoreInto_succeeds.1 hloaded)).legal hw
    exact ⟨hlegal, by rw [hstatus]; rfl, by rw [hstatus]; exact Status.all_capture hw hlegal _,
      hremembers⟩

/-- The snapshot of a regular session that runs brings back a regular session. -/
theorem regular_restore_snapshot {o : Outline} (hbuild : o.build = .ok m.chart) {r : Run σ}
    (h : m.Reachable r) (hrunning : r.session.running = true) (hregular : Regular m.chart r)
    (stamp : Stamp) (q : Run σ) :
    Regular m.chart (m.restore (m.snapshot r stamp) q).2 := by
  obtain ⟨hw, -⟩ := Outline.wellFormed_of_build hbuild
  have hclosed : m.chart.closure (r.session.configuration.atomic m.chart).members =
      r.session.configuration.active := hw.closure_of_legal hregular.legal
  have hlegal : m.chart.violations (r.session.configuration.atomic m.chart) = [] := by
    rw [hw.violations_eq_nil_iff (Configuration.allAtomic hregular.legal), hclosed]
    exact hregular.legal
  obtain ⟨-, hsession, -⟩ := resume hbuild h hrunning hclosed hlegal stamp m.host q
  have hsame : (m.restore (m.snapshot r stamp) q).2.session = r.session := hsession
  refine hregular.congr ?_ ?_ ?_ ?_ <;> rw [hsame]

/-- How runs begin: the session is new, or it was brought back by a snapshot and its histories
remember what can be active inside their states, or it is cleared first, whatever it was. -/
inductive Opens (m : Interpreter σ) : Run σ → List Operation → Prop where
  | new (id : SessionId) (world : σ) (operations : List Operation) :
    Opens m (.new id world) operations
  | restored (snap : Snapshot) (r : Run σ)
      (hremembers : m.chart.Remembers (m.restore snap r).2.session.histories)
      (operations : List Operation) : Opens m (m.restore snap r).2 operations
  | cleared (r : Run σ) {operation : Operation}
      (hclears : operation = .go ∨ operation = .reset) (operations : List Operation) :
    Opens m r (operation :: operations)

/-- The operations pass their course, and before each move of it that does not enter the start the
run is regular. -/
structure Proceeds (m : Interpreter σ) (start : Run σ) (operations : List Operation) : Prop where
  passes : m.Passes start (m.course operations start) (m.operateAll operations start)
  regular : ∀ {front back : List (Stage σ)} {move : Move σ},
    m.course operations start = front ++ .moved move :: back → move.cause ≠ .start →
      Regular m.chart move.before

section Opens

variable (hw : m.chart.WellFormed) (hc : m.chart.Checked) (hp : m.chart.Plain)
  (hd : m.chart.DefaultsJoined)

include hw hc hp hd

theorem proceeds_of_regular {r : Run σ} (hr : Regular m.chart r) (operations : List Operation) :
    m.Proceeds r operations := by
  have hinvariant := invariant_steady hw hc hp hd r
  have hpasses := passes_course (hinvariant.succeed operations hr.steady)
  refine ⟨hpasses, fun hcourse hcause => ?_⟩
  rw [hcourse] at hpasses
  exact ((hpasses.split hcause).1.preserves hinvariant hr.steady).toRegular

/-- Once the session is cleared the runs on the way are regular. -/
theorem Passes.regular_of_cleared {r t : Run σ} {stages : List (Stage σ)}
    (h : m.Passes r stages t) (hcleared : .cleared ∈ stages) : Regular m.chart t := by
  have hinvariant := invariant_steady hw hc hp hd
  induction h with
  | done r => cases hcleared
  | acts _ _ ih => exact ih hcleared
  | publishPending _ ih => exact ih hcleared
  | halt _ ih => exact ih hcleared
  | moved _ _ _ ih => exact ih (by simpa using hcleared)
  | @reset r _ _ rest _ =>
    exact (rest.preserves (hinvariant _) (m.regular_reset r).steady).toRegular
  | @go r s t step stages h rest _ =>
    have hstart := steady_start hw hc hp hd (Run.Orderly.quiet : r.Orderly → _)
    rw [show m.initialStep ((m.reset r).mapSession fun session =>
      { session with running := true }) = (.ok step, s) from h] at hstart
    have hregular : Regular m.chart s := hstart.toRegular
    exact (rest.preserves (hinvariant _) hregular.steady).toRegular

/-- An operation that clears the session succeeds and leaves it regular. -/
theorem regular_of_clears (r : Run σ) {operation : Operation}
    (hclears : operation = .go ∨ operation = .reset) :
    Regular m.chart (m.operate operation r).2 ∧
      ∃ summaries, (m.operate operation r).1 = .ok summaries := by
  rcases hclears with rfl | rfl
  · have hstart := steady_start hw hc hp hd (Run.Orderly.quiet : r.Orderly → _)
    obtain ⟨hsteady, herror⟩ := (invariant_steady hw hc hp hd r).lasts.complete hstart
    refine ⟨hsteady.toRegular, ?_⟩
    cases hout : (m.operate .go r).1 with
    | ok summaries => exact ⟨summaries, rfl⟩
    | error e => exact (herror e hout).elim (fun _ h => h.elim)
  · exact ⟨m.regular_reset r, [], rfl⟩

theorem proceeds_of_clears (r : Run σ) {operation : Operation}
    (hclears : operation = .go ∨ operation = .reset) (operations : List Operation) :
    m.Proceeds r (operation :: operations) := by
  obtain ⟨hnext, hfirst⟩ := regular_of_clears hw hc hp hd r hclears
  have hsucceed : m.Succeed (operation :: operations) r :=
    ⟨hfirst, (invariant_steady hw hc hp hd _).succeed operations hnext.steady⟩
  have hpasses := passes_course hsucceed
  refine ⟨hpasses, fun {front back move} hcourse hcause => ?_⟩
  -- The course begins with the stage in which the session is cleared.
  obtain ⟨stages, hstages⟩ :
      ∃ stages, m.course (operation :: operations) r = .cleared :: stages := by
    rcases hclears with rfl | rfl <;> exact ⟨_, rfl⟩
  have hcleared : .cleared ∈ front := by
    rw [hstages] at hcourse
    cases front with
    | nil => cases hcourse
    | cons stage front => simp [(List.cons.inj hcourse).1]
  rw [hcourse] at hpasses
  exact (hpasses.split hcause).1.regular_of_cleared hw hc hp hd hcleared

theorem Opens.proceeds {start : Run σ} {operations : List Operation}
    (h : m.Opens start operations) : m.Proceeds start operations := by
  cases h with
  | new id world => exact proceeds_of_regular hw hc hp hd (m.regular_new id world) operations
  | restored snap r hremembers =>
    exact proceeds_of_regular hw hc hp hd (regular_restore hw snap r hremembers) operations
  | cleared _ hclears operations => exact proceeds_of_clears hw hc hp hd start hclears operations

end Opens

/-- Let the state `b` be left in the move `i` and not be left again until in the move `j` a
transition to a history of `b` fires. Then after `j` the same states without children are active
below `b` as before `i` if the history is deep, and the same children of `b` if it is shallow. -/
theorem history_restored {o : Outline} (hbuild : o.build = .ok m.chart) (hp : m.chart.Plain)
    (hd : m.chart.DefaultsCompatible) {start : Run σ} {operations : List Operation}
    (hopens : m.Opens start operations) {front between back : List (Stage σ)} {i j : Move σ}
    (hcourse : m.course operations start = front ++ .moved i :: (between ++ .moved j :: back))
    {h b t : Nat} {depth : HistoryDepth} (hh : m.chart.kind h = .history depth)
    (hb : m.chart.parent h = some b) (hexit : b ∈ i.step.exitList)
    (hkept : ∀ stage ∈ between, ∃ move, stage = .moved move ∧ b ∉ move.step.exitList)
    (ht : t ∈ j.step.transitions) (htarget : h ∈ (m.chart.transition t).targets) :
    activeBelow m.chart depth b j.after = activeBelow m.chart depth b i.before := by
  obtain ⟨hw, hc⟩ := Outline.wellFormed_of_build hbuild
  have hjoined := hd.joined hw
  obtain ⟨hpasses, hregular⟩ := hopens.proceeds hw hc hp hjoined
  have hregulari : i.cause ≠ .start → Regular m.chart i.before := hregular hcourse
  -- The course, cut at the two moves.
  rw [hcourse] at hpasses
  have hmakesi : m.Makes i := hpasses.makes (by simp)
  have hmakesj : m.Makes j := hpasses.makes (by simp)
  obtain ⟨hcausei, hactive⟩ :=
    active_of_exited hw hc hp hjoined (hmakesi.goes hw) hregulari hexit
  have hcausej : j.cause ≠ .start := (hmakesj.goes hw).cause_of_fired ht
  obtain ⟨-, -, hafter⟩ := hpasses.split hcausei
  obtain ⟨hmiddle, -, -⟩ := hafter.split hcausej
  have hinvariant := invariant_steady hw hc hp hjoined i.before
  have hi : Regular m.chart i.before := hregulari hcausei
  have hj : Steady m.chart i.before j.before :=
    hmiddle.preserves hinvariant (hinvariant.makes hmakesi hcausei hi.steady)
  -- The record that is made in the one move is the one that is read in the other.
  have hget : j.before.session.histories.get? h =
      some (activeBelow m.chart depth b i.before) := by
    rw [hmiddle.get?_histories hw hh hb hkept, (hmakesi.goes hw).get?_histories hw hh hb,
      if_pos hexit, remembered_eq hi]
  have hcomposite := hw.parent_composite hb
  have hreached := mem_active_of_remembered hw hc hp hjoined (hmakesj.goes hw) hj.toRegular ht
    htarget ⟨depth, hh⟩ hget (exists_mem_activeBelow hw hi hactive hcomposite depth)
  exact activeBelow_eq hw hi (hinvariant.makes hmakesj hcausej hj).toRegular hactive hcomposite
    depth hreached

theorem exists_move (stages : List (Stage σ)) (n : Nat) (P : Move σ → Bool)
    (h : (stages[n]?.bind Stage.move?).any P = true) :
    ∃ move, stages.drop n = .moved move :: stages.drop (n + 1) ∧ P move = true := by
  cases hstage : stages[n]? with
  | none => simp [hstage] at h
  | some stage =>
    cases stage with
    | cleared => simp [hstage, Stage.move?] at h
    | moved move =>
      obtain ⟨hlt, hget⟩ := List.getElem?_eq_some_iff.1 hstage
      refine ⟨move, ?_, by simpa [hstage, Stage.move?] using h⟩
      rw [List.drop_eq_getElem_cons hlt, hget]

/-- A player that was brought back is turned off, and on again. -/
def playerCourse : List (Stage Unit) :=
  player.course [.trigger (.signal "power"), .trigger (.signal "power")]
    (player.restore playerSnapshot (Run.new secondId ())).2

theorem opens_playerCourse : player.Opens (player.restore playerSnapshot (Run.new secondId ())).2
    [.trigger (.signal "power"), .trigger (.signal "power")] := by
  obtain ⟨hw, hc⟩ := Outline.wellFormed_of_build Outline.build_player
  have hinvariant := invariant_steady (m := player) hw hc Chart.plain_player
    (Chart.defaultsCompatible_player.joined hw)
  have hreachable : player.Reachable playerRun := (Reachable.new _ _).operateAll _
  have hregular : Regular player.chart playerRun :=
    ((hinvariant _).operateAll _ (player.regular_new _ _).steady).toRegular
  have hrestored := regular_restore_snapshot Outline.build_player hreachable (by decide +kernel)
    hregular ⟨"noon", ⟨19000, 0, 0⟩⟩ (Run.new secondId ())
  exact .restored playerSnapshot (Run.new secondId ()) hrestored.remembers _

/-- Below the state `on` with the number 0 the same is active when the player is on again as before
it was turned off. -/
theorem history_restored_player : ∃ (i j : Move Unit) (between back : List (Stage Unit)),
    playerCourse = .moved i :: (between ++ .moved j :: back) ∧
      activeBelow player.chart .deep 0 j.after = activeBelow player.chart .deep 0 i.before := by
  obtain ⟨i, hi, hexit⟩ := exists_move playerCourse 0
    (fun move => decide (0 ∈ move.step.exitList)) (by decide +kernel)
  obtain ⟨k, hk, hkept⟩ := exists_move playerCourse 1
    (fun move => decide (0 ∉ move.step.exitList)) (by decide +kernel)
  obtain ⟨j, hj, hfires⟩ := exists_move playerCourse 2
    (fun move => decide (8 ∈ move.step.transitions)) (by decide +kernel)
  have hcourse : playerCourse =
      [] ++ .moved i :: ([.moved k] ++ .moved j :: playerCourse.drop 3) := by
    rw [hk, hj] at hi
    exact hi
  have hhistory : player.chart.kind 9 = .history .deep := by decide
  have hparent : player.chart.parent 9 = some 0 := by decide
  have htarget : 9 ∈ (player.chart.transition 8).targets := by decide
  exact ⟨i, j, [.moved k], playerCourse.drop 3, hcourse,
    history_restored Outline.build_player Chart.plain_player
      Chart.defaultsCompatible_player opens_playerCourse hcourse hhistory hparent
      (by simpa using hexit) (by simpa using hkept) (by simpa using hfires) htarget⟩

end Interpreter

/-- An afternoon of work with music. After a break both go on as their histories say. -/
def Outline.afternoon : Outline where
  name := none
  datamodel := none
  initial := []
  states := [
    .mk (.named "afternoon" .parallel [] []) [
      .mk (.named "work" .plain [] []) [
        .mk (.named "task" .plain [⟨some "mark", .shallow, none⟩] [.on "pause" "break"]) [
          .mk (.named "draft" .plain [] []) [],
          .mk (.named "review" .plain [] []) []],
        .mk (.named "break" .plain [] [.on "resume" "mark"]) []],
      .mk (.named "music" .plain [⟨some "tune", .shallow, none⟩] []) [
        .mk (.named "song" .plain [] [.on "resume" "tune"]) []]]]
  data := []

theorem Outline.build_afternoon : Outline.afternoon.build = .ok Outline.afternoon.chart :=
  build_eq_ok rfl (by decide +kernel) (by decide +kernel)

theorem Chart.plain_afternoon : Outline.afternoon.chart.Plain where
  start := by decide +kernel
  defaults := by decide +kernel
  targets := by decide +kernel

theorem Chart.defaultsCompatible_afternoon : Outline.afternoon.chart.DefaultsCompatible := by
  unfold DefaultsCompatible
  decide +kernel

namespace Interpreter

def worker : Interpreter Unit := ⟨Outline.afternoon.chart, .minimal, .silent, .default⟩

/-- An afternoon that was brought back while a draft is written. Its history of the music
remembers that work is reviewed. -/
def workerRun : Run Unit :=
  let snap := worker.snapshot (worker.operateAll [.go] (Run.new secondId ()))
    ⟨"noon", ⟨19000, 0, 0⟩⟩
  (worker.restore { snap with histories := .ofList [("tune", ["review"])] }
    (Run.new secondId ())).2

/-- The worker has a break and goes on. -/
def workerCourse : List (Stage Unit) :=
  worker.course [.trigger (.signal "pause"), .trigger (.signal "resume")] workerRun

/-- What was loaded for a history of another region is active beside what a history brings back:
after the break the task with the number 2 is written and reviewed. -/
theorem exists_history_not_restored : ¬ ∀ (o : Outline) (m : Interpreter Unit),
    o.build = .ok m.chart → m.chart.Plain → m.chart.DefaultsCompatible →
    ∀ start : Run Unit, m.Reachable start →
    ∀ (operations : List Operation) (front between back : List (Stage Unit)) (i j : Move Unit),
      m.course operations start = front ++ .moved i :: (between ++ .moved j :: back) →
      ∀ (h b t : Nat) (depth : HistoryDepth), m.chart.kind h = .history depth →
        m.chart.parent h = some b → b ∈ i.step.exitList →
        (∀ stage ∈ between, ∃ move, stage = .moved move ∧ b ∉ move.step.exitList) →
        t ∈ j.step.transitions → h ∈ (m.chart.transition t).targets →
        activeBelow m.chart depth b j.after = activeBelow m.chart depth b i.before := by
  intro h
  obtain ⟨i, hi, hleft⟩ := exists_move workerCourse 0
    (fun move => decide (2 ∈ move.step.exitList ∧
      4 ∉ activeBelow worker.chart .shallow 2 move.before)) (by decide +kernel)
  obtain ⟨k, hk, hkept⟩ := exists_move workerCourse 1
    (fun move => decide (2 ∉ move.step.exitList)) (by decide +kernel)
  obtain ⟨j, hj, hback⟩ := exists_move workerCourse 2
    (fun move => decide (3 ∈ move.step.transitions ∧
      4 ∈ activeBelow worker.chart .shallow 2 move.after)) (by decide +kernel)
  obtain ⟨hexit, hbefore⟩ := of_decide_eq_true hleft
  obtain ⟨hfires, hafter⟩ := of_decide_eq_true hback
  have hcourse : workerCourse =
      [] ++ .moved i :: ([.moved k] ++ .moved j :: workerCourse.drop 3) := by
    rw [hk, hj] at hi
    exact hi
  have hreachable : worker.Reachable workerRun := (Reachable.new _ _).restore _
  have hsame := h .afternoon worker Outline.build_afternoon Chart.plain_afternoon
    Chart.defaultsCompatible_afternoon workerRun hreachable _ [] [.moved k] (workerCourse.drop 3)
    i j hcourse 6 2 3 .shallow (by decide) (by decide) hexit (by simpa using hkept) hfires
    (by decide)
  rw [hsame] at hafter
  exact hbefore hafter

end Interpreter

end Statechart
