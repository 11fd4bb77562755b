import Statechart.Proofs.Checking

/-!
The ceiling of a macrostep. A macrostep that settles under some ceiling needs a number of
microsteps, and the ceiling matters only through this number: under every greater one the
operation comes to the same run, and under every other one it is cut off as soon as it has made
as many microsteps as the ceiling allows. It is cut off even when it has made all it needs, since
the ceiling is looked at before it is known whether anything is left to do.
-/

namespace Statechart

variable {σ : Type}

/-- The report that a macrostep was cut off. -/
def Entry.isCutoff : Entry → Bool
  | .report ⟨kind, _, _⟩ => decide (kind = .loopLimit)
  | _ => false

/-- How often a macrostep has been cut off. -/
def Run.cutoffs (r : Run σ) : Nat :=
  r.journal.countP Entry.isCutoff

/-- What has been cut off stays so. -/
theorem Posts.cutoffs_le {r s : Run σ} (h : Posts r s) : r.cutoffs ≤ s.cutoffs := by
  obtain ⟨entries, hjournal, -⟩ := h
  rw [Run.cutoffs, Run.cutoffs, hjournal, List.countP_append]
  exact Nat.le_add_left _ _

namespace Stage

/-- Whether the stage is a microstep that counts against the ceiling. The one that begins a
macrostep does not, and one without event does if it fires something. -/
def counts : Stage σ → Bool
  | cleared => false
  | moved move =>
    match move.cause with
    | .start | .external _ => false
    | .eventless => move.step.hasFired
    | .internal _ => true

/-- The number of microsteps that count. -/
def counted (stages : List (Stage σ)) : Nat :=
  stages.countP counts

@[simp] theorem counted_nil : counted ([] : List (Stage σ)) = 0 := rfl

@[simp] theorem counted_append (xs ys : List (Stage σ)) :
    counted (xs ++ ys) = counted xs + counted ys :=
  List.countP_append

/-- What does not count may as well be left out at the front. -/
theorem counted_cons_of_not {stage : Stage σ} (h : stage.counts = false)
    (stages : List (Stage σ)) : counted (stage :: stages) = counted stages :=
  List.countP_cons_of_neg (by simp [h])

end Stage

open Stage (counted)

namespace Interpreter

/-- How many microsteps an operation makes that count against the ceiling. -/
def microstepsOf (m : Interpreter σ) (operation : Operation) (r : Run σ) : Nat :=
  counted (m.operateCourse operation r)

/-- The operation is cut off: it reports that its macrostep has reached the ceiling. -/
def Overruns (m : Interpreter σ) (operation : Operation) (r : Run σ) : Prop :=
  r.cutoffs < (m.operate operation r).2.cutoffs

instance (m : Interpreter σ) (operation : Operation) (r : Run σ) :
    Decidable (m.Overruns operation r) :=
  inferInstanceAs (Decidable (_ < _))

/-- The interpreter with another ceiling. -/
def limitedTo (m : Interpreter σ) (ceiling : Nat) : Interpreter σ :=
  m.under { m.config with maxMicrosteps := ceiling }

section Limited

variable (m : Interpreter σ) (ceiling : Nat)

theorem limitedTo_self : m.limitedTo m.config.maxMicrosteps = m := rfl

theorem microstep_limitedTo : (m.limitedTo ceiling).microstep = m.microstep := by
  funext event r
  unfold microstep limitedTo
  simp only [select_under, carryOut_under]
  rfl

theorem initialStep_limitedTo : (m.limitedTo ceiling).initialStep = m.initialStep := by
  funext r
  unfold initialStep limitedTo
  simp only [carryOut_under]
  rfl

theorem round_limitedTo : (m.limitedTo ceiling).round = m.round := by
  funext r
  unfold round
  rw [microstep_limitedTo]

theorem roundCourse_limitedTo : (m.limitedTo ceiling).roundCourse = m.roundCourse := by
  funext r
  unfold roundCourse
  rw [microstep_limitedTo]

theorem startInvokes_limitedTo : (m.limitedTo ceiling).startInvokes = m.startInvokes := rfl

theorem settled_limitedTo : (m.limitedTo ceiling).settled = m.settled := rfl

theorem settleCourse_limitedTo : (m.limitedTo ceiling).settleCourse = m.settleCourse := by
  funext budget r
  induction budget generalizing r with
  | zero => rfl
  | succ budget ih =>
    simp only [settleCourse, roundCourse_limitedTo, round_limitedTo, startInvokes_limitedTo, ih]

end Limited

section Cutoffs

variable (m : Interpreter σ)

theorem cutoffs_le_reset (r : Run σ) : r.cutoffs ≤ (m.reset r).cutoffs :=
  calc r.cutoffs ≤ (m.clear r).cutoffs := (m.acts_cancelAllInvokes r).posts.cutoffs_le
    _ ≤ (m.reset r).cutoffs := (m.acts_initializeData (m.clear r)).posts.cutoffs_le

theorem invariant_cutoffs (n : Nat) :
    m.Invariant (n ≤ ·.cutoffs) (fun _ r => n ≤ r.cutoffs) where
  evolves hr h := hr.trans h.posts.cutoffs_le
  take _ hr := hr
  publishPending hr := hr
  halt hr := hr
  fail {_ r} hr := hr.trans (m.acts_cancelAllInvokes r).posts.cutoffs_le
  reset {r} hr := hr.trans (m.cutoffs_le_reset r)
  start {r} hr :=
    have hready : n ≤ (m.ready r).cutoffs := hr.trans (m.cutoffs_le_reset r)
    leaves_iff.2 (hready.trans (m.posts_initialStep (m.ready r)).cutoffs_le)
  microstep {r} event hr := leaves_iff.2 (hr.trans (m.posts_microstep event r).cutoffs_le)

theorem cutoffs_lt_exhausted (r : Run σ) : r.cutoffs < (m.exhausted r).cutoffs := by
  let reported := r.report .loopLimit
    ("macrostep exceeded " ++ toString m.config.maxMicrosteps ++ " microsteps, stopping") none
  have hreported : reported.cutoffs = r.cutoffs + 1 := List.countP_cons_of_pos (by rfl)
  have hstopped : reported.cutoffs ≤ (m.exhausted r).cutoffs :=
    (m.acts_cancelAllInvokes reported).posts.cutoffs_le
  omega

end Cutoffs

section Counted

variable {m : Interpreter σ}

/-- A round makes one microstep that counts, unless it fails or has nothing to do. -/
theorem counted_roundCourse (r : Run σ) :
    counted (m.roundCourse r) =
      match m.round r with
      | .moved _ _ => 1
      | .idle _ | .failed _ _ => 0 := by
  unfold roundCourse round
  obtain ⟨result, s⟩ := m.microstep none r
  cases result with
  | error e => rfl
  | ok step =>
    by_cases hfired : step.hasFired = true
    · simp [hfired, counted, Stage.counts]
    · have hfirst : (Stage.moved ⟨.eventless, r, step, s⟩).counts = false := by
        simpa [Stage.counts] using hfired
      dsimp only
      rw [Stage.counted_cons_of_not hfirst, if_neg hfired, if_neg hfired]
      cases takeInternal s with
      | none => rfl
      | some taken =>
        obtain ⟨e, t⟩ := taken
        dsimp only
        obtain ⟨result, u⟩ := m.microstep (some e) t
        cases result <;> rfl

/-- The microsteps that count after a round, with `budget` left. -/
def countPursued (m : Interpreter σ) (budget : Nat) (whenIdle : Run σ → Nat) : Round σ → Nat
  | .failed _ _ => 0
  | .moved _ r => 1 + counted (m.settleCourse budget r)
  | .idle r => whenIdle r

/-- The microsteps that count once the services that wait are started. -/
def countServed (m : Interpreter σ) (budget : Nat) (r : Run σ) : Nat :=
  let r := m.startInvokes r
  if r.session.internal.isEmpty then 0 else m.countPursued budget (fun _ => 0) (m.round r)

theorem counted_settleCourse_succ (budget : Nat) (r : Run σ) :
    counted (m.settleCourse (budget + 1) r) =
      m.countPursued budget (m.countServed budget) (m.round r) := by
  rw [settleCourse, Stage.counted_append, counted_roundCourse]
  cases m.round r with
  | failed e s => rfl
  | moved step s => rfl
  | idle s =>
    simp only [countPursued, countServed, Nat.zero_add]
    split
    · rfl
    · rw [Stage.counted_append, counted_roundCourse]
      cases m.round (m.startInvokes s) <;> simp

end Counted

section Ceilings

variable {m : Interpreter σ} (ceiling : Nat)

/-- What a macrostep goes on with after a round, under two ceilings that are both high enough. -/
theorem pursue_limitedTo {budget budget' : Nat} {whenIdle whenIdle' : Run σ → Outcome × Run σ}
    {idleCount : Run σ → Nat} {out : Round σ}
    (hgoOn : ∀ r : Run σ, counted (m.settleCourse budget r) < budget →
      counted (m.settleCourse budget r) < budget' →
        (m.limitedTo ceiling).settle budget' r = m.settle budget r)
    (hidle : ∀ r : Run σ, idleCount r < budget + 1 → idleCount r < budget' + 1 →
      whenIdle' r = whenIdle r)
    (h : m.countPursued budget idleCount out < budget + 1)
    (h' : m.countPursued budget idleCount out < budget' + 1) :
    (m.limitedTo ceiling).pursue budget' whenIdle' out = m.pursue budget whenIdle out := by
  cases out with
  | failed e r => rfl
  | moved step r =>
    simp only [countPursued] at h h'
    simp only [pursue, hgoOn r (by omega) (by omega)]
    rfl
  | idle r => exact hidle r h h'

/-- A macrostep that needs less than its budget comes to the same with every budget that is more
than what it needs. -/
theorem settle_limitedTo {budget budget' : Nat} {r : Run σ}
    (h : counted (m.settleCourse budget r) < budget)
    (h' : counted (m.settleCourse budget r) < budget') :
    (m.limitedTo ceiling).settle budget' r = m.settle budget r := by
  induction budget generalizing budget' r with
  | zero => exact absurd h (Nat.not_lt_zero _)
  | succ budget ih =>
    obtain ⟨budget', rfl⟩ := Nat.exists_eq_add_one_of_ne_zero (Nat.ne_zero_of_lt h')
    have hgoOn : ∀ r : Run σ, counted (m.settleCourse budget r) < budget →
        counted (m.settleCourse budget r) < budget' →
          (m.limitedTo ceiling).settle budget' r = m.settle budget r := fun r h h' => ih h h'
    rw [counted_settleCourse_succ] at h h'
    rw [settle_succ, settle_succ, round_limitedTo]
    refine pursue_limitedTo ceiling hgoOn (fun r h h' => ?_) h h'
    unfold serve
    simp only [countServed] at h h'
    simp only [startInvokes_limitedTo, settled_limitedTo, round_limitedTo]
    split
    · rfl
    · next hsome =>
      rw [if_neg hsome] at h h'
      exact pursue_limitedTo ceiling hgoOn (fun _ _ _ => rfl) h h'

/-- The macrostep that goes on from `r` has come to the ceiling and was cut off. -/
def CutOff (m : Interpreter σ) (ceiling : Nat) (r : Run σ) (out : Outcome × Run σ) : Prop :=
  ∃ (summaries : List Summary) (t : Run σ),
    out = (.ok summaries, (m.limitedTo ceiling).exhausted t) ∧ r.cutoffs ≤ t.cutoffs

theorem CutOff.of_le {r s : Run σ} {out : Outcome × Run σ} (h : m.CutOff ceiling s out)
    (hle : r.cutoffs ≤ s.cutoffs) : m.CutOff ceiling r out := by
  obtain ⟨summaries, t, hout, ht⟩ := h
  exact ⟨summaries, t, hout, hle.trans ht⟩

theorem CutOff.map {r : Run σ} {out : Outcome × Run σ} (h : m.CutOff ceiling r out)
    (f : List Summary → List Summary) : m.CutOff ceiling r (out.1.map f, out.2) := by
  obtain ⟨summaries, t, rfl, ht⟩ := h
  exact ⟨f summaries, t, rfl, ht⟩

/-- Where a macrostep goes on after a round whose budget does not last. -/
theorem pursue_cutOff {budget budget' : Nat} {r : Run σ} {whenIdle : Run σ → Outcome × Run σ}
    {idleCount idleCount' : Run σ → Nat}
    (hgoOn : ∀ s : Run σ, budget' ≤ counted (m.settleCourse budget s) →
      m.CutOff ceiling s ((m.limitedTo ceiling).settle budget' s) ∧
        counted (m.settleCourse budget' s) = budget')
    (hidle : ∀ s : Run σ, budget' + 1 ≤ idleCount s →
      m.CutOff ceiling s (whenIdle s) ∧ idleCount' s = budget' + 1)
    (h : budget' + 1 ≤ m.countPursued budget idleCount (m.round r)) :
    m.CutOff ceiling r ((m.limitedTo ceiling).pursue budget' whenIdle (m.round r)) ∧
      m.countPursued budget' idleCount' (m.round r) = budget' + 1 := by
  have hle := (m.invariant_cutoffs r.cutoffs).round (Nat.le_refl r.cutoffs)
  cases hround : m.round r with
  | failed e s =>
    rw [hround] at h
    cases h
  | moved step s =>
    rw [hround] at h hle
    simp only [countPursued] at h ⊢
    obtain ⟨hcut, hcount⟩ := hgoOn s (by omega)
    exact ⟨(hcut.map ceiling _).of_le ceiling hle, by omega⟩
  | idle s =>
    rw [hround] at h hle
    obtain ⟨hcut, hcount⟩ := hidle s h
    exact ⟨hcut.of_le ceiling hle, hcount⟩

/-- A macrostep that needs as much as a budget or more is cut off with this budget, and until then
it makes as many microsteps as the budget allows. -/
theorem settle_cutOff {budget budget' : Nat} {r : Run σ}
    (h : budget' ≤ counted (m.settleCourse budget r)) :
    m.CutOff ceiling r ((m.limitedTo ceiling).settle budget' r) ∧
      counted (m.settleCourse budget' r) = budget' := by
  induction budget' generalizing budget r with
  | zero => exact ⟨⟨[], r, rfl, Nat.le_refl _⟩, rfl⟩
  | succ budget' ih =>
    cases budget with
    | zero => cases h
    | succ budget =>
      rw [counted_settleCourse_succ] at h ⊢
      rw [settle_succ, round_limitedTo]
      refine pursue_cutOff ceiling (fun _ => ih) (fun s h => ?_) h
      have hle : s.cutoffs ≤ (m.startInvokes s).cutoffs := (m.acts_startInvokes s).posts.cutoffs_le
      unfold serve
      simp only [countServed] at h ⊢
      simp only [startInvokes_limitedTo, round_limitedTo]
      split
      · next hnone =>
        rw [if_pos hnone] at h
        cases h
      · next hsome =>
        rw [if_neg hsome] at h
        refine And.imp_left (fun hcut => hcut.of_le ceiling hle) (pursue_cutOff ceiling
          (fun _ => ih) (fun _ h => ?_) h)
        exact absurd h (Nat.not_succ_le_zero _)

theorem CutOff.cutoffs_lt {r : Run σ} {out : Outcome × Run σ} (h : m.CutOff ceiling r out) :
    r.cutoffs < out.2.cutoffs := by
  obtain ⟨summaries, t, rfl, ht⟩ := h
  exact ht.trans_lt ((m.limitedTo ceiling).cutoffs_lt_exhausted t)

theorem CutOff.running {r : Run σ} {out : Outcome × Run σ} (h : m.CutOff ceiling r out) :
    out.2.session.running = false := by
  obtain ⟨summaries, t, rfl, -⟩ := h
  rfl

theorem CutOff.conclude {r : Run σ} {out : Outcome × Run σ} (h : m.CutOff ceiling r out) :
    m.CutOff ceiling r ((m.limitedTo ceiling).conclude out) := by
  obtain ⟨summaries, t, rfl, ht⟩ := h
  exact ⟨summaries, t, rfl, ht⟩

/-- What a ceiling makes of an operation on `r` that settles as `out` after `needed` microsteps:
under the ceiling it comes to `limited` after `made` microsteps. -/
structure Bounds (m : Interpreter σ) (ceiling : Nat) (r : Run σ) (needed made : Nat)
    (out limited : Outcome × Run σ) : Prop where
  below : needed < ceiling → limited = out
  reached : ceiling ≤ needed → m.CutOff ceiling r limited ∧ made = ceiling

theorem bounds_complete (hceiling : 0 < ceiling) {r : Run σ} (before : Run σ) {cause : Cause}
    (hcause : ∀ step s, (Stage.moved ⟨cause, before, step, s⟩).counts = false)
    {first : Except StepError Step × Run σ} (hfirst : r.cutoffs ≤ first.2.cutoffs)
    (hsettles : ¬ r.cutoffs < (m.complete first).2.cutoffs) :
    m.Bounds ceiling r (counted (m.completeCourse cause before first))
      (counted ((m.limitedTo ceiling).completeCourse cause before first)) (m.complete first)
      ((m.limitedTo ceiling).complete first) := by
  obtain ⟨result, s⟩ := first
  cases result with
  | error e => exact ⟨fun _ => rfl, fun h => absurd hceiling (Nat.not_lt.2 h)⟩
  | ok step =>
    have hcount : ∀ k : Interpreter σ, counted (k.completeCourse cause before (.ok step, s)) =
        counted (k.settleCourse k.config.maxMicrosteps s) :=
      fun k => Stage.counted_cons_of_not (hcause step s) _
    have hneeds : counted (m.settleCourse m.config.maxMicrosteps s) < m.config.maxMicrosteps := by
      by_contra hexceeds
      obtain ⟨hcut, -⟩ := settle_cutOff m.config.maxMicrosteps (Nat.not_lt.1 hexceeds)
      rw [limitedTo_self] at hcut
      exact hsettles (((hcut.map _ (m.summaryOf step ++ ·)).conclude.of_le _ hfirst).cutoffs_lt)
    rw [hcount, hcount, settleCourse_limitedTo, complete_ok, complete_ok]
    refine ⟨fun hbelow => ?_, fun hreached => ?_⟩
    · rw [show (m.limitedTo ceiling).config.maxMicrosteps = ceiling from rfl,
        settle_limitedTo ceiling hneeds hbelow]
      rfl
    · obtain ⟨hcut, hmade⟩ := settle_cutOff ceiling hreached
      exact ⟨((hcut.map ceiling _).conclude ceiling).of_le ceiling hfirst, hmade⟩

theorem bounds_operate (hceiling : 0 < ceiling) (operation : Operation) {r : Run σ}
    (hsettles : ¬ m.Overruns operation r) :
    m.Bounds ceiling r (m.microstepsOf operation r)
      ((m.limitedTo ceiling).microstepsOf operation r) (m.operate operation r)
      ((m.limitedTo ceiling).operate operation r) := by
  have hnone : ∀ {made : Nat} {out : Outcome × Run σ}, m.Bounds ceiling r 0 made out out :=
    ⟨fun _ => rfl, fun h => absurd hceiling (Nat.not_lt.2 h)⟩
  unfold Overruns at hsettles
  unfold microstepsOf
  cases operation with
  | go =>
    have hready : r.cutoffs ≤ (m.ready r).cutoffs := m.cutoffs_le_reset r
    have hcleared : ∀ stages : List (Stage σ), counted (.cleared :: stages) = counted stages :=
      Stage.counted_cons_of_not rfl
    have hfirst : (m.limitedTo ceiling).initialStep ((m.limitedTo ceiling).ready r) =
        m.initialStep (m.ready r) := congrFun (m.initialStep_limitedTo ceiling) (m.ready r)
    simp only [operateCourse, hcleared, hfirst]
    rw [show (m.limitedTo ceiling).operate .go r = (m.limitedTo ceiling).complete
      ((m.limitedTo ceiling).initialStep ((m.limitedTo ceiling).ready r)) from rfl, hfirst]
    exact bounds_complete ceiling hceiling (m.ready r) (fun _ _ => rfl)
      (hready.trans (m.posts_initialStep (m.ready r)).cutoffs_le) hsettles
  | reset => exact hnone
  | stop => exact hnone
  | trigger event =>
    simp only [operate, trigger, operateCourse, microstep_limitedTo] at hsettles ⊢
    split
    · exact hnone
    · next hrunning =>
      rw [if_neg hrunning] at hsettles
      split
      · exact hnone
      · next hkind =>
        rw [if_neg hkind] at hsettles
        exact bounds_complete ceiling hceiling r (fun _ _ => rfl)
          (m.posts_microstep (some event) r).cutoffs_le hsettles

end Ceilings

end Interpreter

/-- A porch that is left for the hall at once, which is noticed and of no consequence. -/
def Outline.porch : Outline where
  name := none
  datamodel := none
  initial := []
  states := [
    .mk (.named "porch" .plain [] [⟨[], none, ["hall"], .external, []⟩]) [],
    .mk { StateHead.named "hall" .plain [] [] with onEntry := [.raise "seen"] } []]
  data := []

theorem Outline.build_porch : Outline.porch.build = .ok Outline.porch.chart :=
  build_eq_ok rfl (by decide +kernel) (by decide +kernel)

namespace Interpreter

def visitor : Interpreter Unit :=
  ⟨Outline.porch.chart, .minimal, .silent, .default⟩

/-- The ceiling matters through the microsteps needed alone. Let an operation settle without being
cut off, under whatever ceiling `m` has, after `needed` microsteps that count. Then another ceiling
cuts it off exactly if it is no greater than that. Under a greater one everything is the same: the
summaries, the session, the host, the queue and the journal. One that is no greater stops the
session after as many microsteps as it allows. -/
theorem operate_limitedTo (m : Interpreter σ) (operation : Operation) (r : Run σ)
    (hsettles : ¬ m.Overruns operation r) {ceiling : Nat} (hceiling : 0 < ceiling) :
    let needed := m.microstepsOf operation r
    let limited := m.limitedTo ceiling
    (limited.Overruns operation r ↔ ceiling ≤ needed) ∧
      (needed < ceiling → limited.operate operation r = m.operate operation r) ∧
      (ceiling ≤ needed → limited.microstepsOf operation r = ceiling ∧
        (limited.operate operation r).2.session.running = false) := by
  intro needed limited
  have hbounds := bounds_operate ceiling hceiling operation hsettles
  refine ⟨⟨fun hoverruns => ?_, fun h => (hbounds.reached h).1.cutoffs_lt⟩, hbounds.below,
    fun h => ⟨(hbounds.reached h).2, (hbounds.reached h).1.running⟩⟩
  by_contra hbelow
  have hsame : limited.operate operation r = m.operate operation r :=
    hbounds.below (Nat.not_le.1 hbelow)
  apply hsettles
  unfold Overruns at hoverruns ⊢
  rwa [hsame] at hoverruns

/-- The visitor needs two microsteps: one to the hall, and one for the event that is of no
consequence. -/
theorem operate_limitedTo_visitor :
    let r := Run.new secondId ()
    visitor.microstepsOf .go r = 2 ∧ (visitor.limitedTo 1).Overruns .go r ∧
      (visitor.limitedTo 3).operate .go r = visitor.operate .go r := by
  intro r
  have hneeded : visitor.microstepsOf .go r = 2 := by decide +kernel
  have hsettles : ¬ visitor.Overruns .go r := by decide +kernel
  obtain ⟨hoverruns, -, -⟩ := operate_limitedTo visitor .go r hsettles (show 0 < 1 by decide)
  obtain ⟨-, hsame, -⟩ := operate_limitedTo visitor .go r hsettles (show 0 < 3 by decide)
  exact ⟨hneeded, hoverruns.2 (by omega), hsame (by omega)⟩

/-- The visitor is cut off in the hall under a ceiling of two, though nothing is left to do. -/
theorem exists_overruns_at_need : ¬ ∀ (o : Outline) (m : Interpreter Unit),
    o.build = .ok m.chart → ∀ (operation : Operation) (r : Run Unit),
      ¬ m.Overruns operation r → ∀ ceiling, 0 < ceiling → m.microstepsOf operation r ≤ ceiling →
        ¬ (m.limitedTo ceiling).Overruns operation r := by
  intro h
  exact h .porch visitor Outline.build_porch .go (Run.new secondId ()) (by decide +kernel) 2
    (by decide) (by decide +kernel) (by decide +kernel)

end Interpreter

end Statechart
