import Statechart.Proofs.Effects
import Statechart.Proofs.Regions

/-!
What the content of a step does to the marks of complete states. Leaving a state takes marks away
and tells of nothing; entering one takes its mark away, and a final state marks what it completes.
So the marks around a parallel state whose regions are not parallel stay right, and it is told that
the state is done if the states that are entered make it complete.
-/

namespace Statechart

namespace Interpreter

variable {σ : Type} (m : Interpreter σ)

/-- How often it was told that the state `p` is done. -/
def told (p : Nat) (r : Run σ) : Nat :=
  r.journal.countP (Entry.tellsDone (m.chart.idOf p))

/-- From the run `r` to the run `s` it is told of no state that it is done. -/
def Untold (r s : Run σ) : Prop :=
  ∀ id, s.journal.countP (Entry.tellsDone id) = r.journal.countP (Entry.tellsDone id)

/-- From the run `r` to the run `s` it is told once that the state `p` is done if `is` holds and
`was` does not, and else it is not told. -/
structure Tells (p : Nat) (was is : Prop) (r s : Run σ) : Prop where
  raised : ¬ was → is → m.told p s = m.told p r + 1
  silent : was ∨ ¬ is → m.told p s = m.told p r

variable {m}

theorem told_of_sameMarks {r s : Run σ} (h : SameMarks r s) (p : Nat) : m.told p s = m.told p r :=
  h.2 _

theorem Untold.trans {r s t : Run σ} (hrs : Untold r s) (hst : Untold s t) : Untold r t :=
  fun id => (hst id).trans (hrs id)

/-- Nothing is told before or afterwards. -/
theorem Tells.congr {p : Nat} {was is : Prop} {r r' s s' : Run σ} (h : m.Tells p was is r s)
    (hr : m.told p r = m.told p r') (hs : m.told p s' = m.told p s) : m.Tells p was is r' s' := by
  refine ⟨fun hnot his => ?_, fun hor => ?_⟩
  · rw [hs, h.raised hnot his, hr]
  · rw [hs, h.silent hor, hr]

theorem Tells.of_no_gain {p : Nat} {was is : Prop} {r s : Run σ} (h : m.told p s = m.told p r)
    (hright : is → was) : m.Tells p was is r s :=
  ⟨fun hnot his => absurd (hright his) hnot, fun _ => h⟩

/-- Of two steps in a row one at most makes the state complete. -/
theorem Tells.trans {p : Nat} {was between is : Prop} {r s t : Run σ}
    (hrs : m.Tells p was between r s) (hst : m.Tells p between is s t)
    (hwas : was → between) (hbetween : between → is) : m.Tells p was is r t := by
  by_cases h : between
  · have hnext := hst.silent (.inl h)
    refine ⟨fun hnot _ => ?_, fun hor => ?_⟩
    · rw [hnext, hrs.raised hnot h]
    · rw [hnext, hrs.silent (hor.imp_right (fun hnot => absurd (hbetween h) hnot))]
  · have hfirst := hrs.silent (.inr h)
    refine ⟨fun _ his => ?_, fun hor => ?_⟩
    · rw [hst.raised h his, hfirst]
    · rw [hst.silent (hor.imp_left (fun hw => absurd (hwas hw) h)), hfirst]

variable (m)

theorem mem_withdraw {s x : Nat} {r : Run σ} :
    x ∈ (r.mapSession (·.withdraw s)).session.completed ↔ x ∈ r.session.completed ∧ x ≠ s :=
  StateSet.mem_erase

theorem reopenAround_spec (s : Nat) (r : Run σ) :
    (m.reopenAround s r).journal = r.journal ∧
      ∀ x, x ∈ (m.reopenAround s r).session.completed ↔ x ∈ r.session.completed ∧
        ¬ (m.chart.parent s = some x ∨ ∃ q, m.chart.parent s = some q ∧
          m.chart.parent q = some x ∧ m.chart.kind x = .parallel) := by
  unfold reopenAround
  cases m.chart.parent s with
  | none => simp
  | some q =>
    have habove : ∀ x, (some q = some x ∨ ∃ y, some q = some y ∧ m.chart.parent y = some x ∧
        m.chart.kind x = .parallel) ↔
          x = q ∨ m.chart.parent q = some x ∧ m.chart.kind x = .parallel := by
      intro x
      simp [eq_comm]
    simp only [habove, not_or, not_and]
    cases m.chart.parent q with
    | none =>
      refine ⟨rfl, fun x => ?_⟩
      simp [mem_withdraw]
    | some g =>
      dsimp only
      split
      · next hk =>
        refine ⟨rfl, fun x => ?_⟩
        rw [mem_withdraw, mem_withdraw, and_assoc]
        refine and_congr_right fun _ => and_congr_right fun _ => ?_
        refine ⟨?_, ?_⟩
        · rintro hxg ⟨rfl⟩
          exact absurd rfl hxg
        · rintro h rfl
          exact h rfl hk
      · next hk =>
        refine ⟨rfl, fun x => ?_⟩
        rw [mem_withdraw]
        refine and_congr_right fun _ => (and_iff_left ?_).symm
        rintro ⟨rfl⟩
        exact hk

theorem leave_eq (s : Nat) (r : Run σ) :
    ∃ t, SameMarks (r.mapSession (·.withdraw s)) t ∧
      m.leave s r = if m.chart.kind s = .final then m.reopenAround s t else t := by
  let cancelled : Run σ := m.cancelInvokes s (m.runBlock (.exit s) s (m.chart.node s).onExit r)
  have hcontent : SameMarks r cancelled :=
    ((m.performs_runBlock _ _ _ r).acts.trans (m.acts_cancelInvokes s _)).sameMarks
  refine ⟨cancelled.mapSession fun session =>
    { session.withdraw s with pendingInvokes := session.pendingInvokes.erase s }, ?_, rfl⟩
  exact (hcontent.withdraw s).trans (.of_eq rfl rfl)

/-- Leaving a state takes marks away and tells of nothing. -/
theorem leave_spec (s : Nat) (r : Run σ) :
    (∀ x, x ∈ (m.leave s r).session.completed ↔
      x ∈ r.session.completed ∧ ¬ m.chart.Withdraws s x) ∧
    Untold r (m.leave s r) := by
  obtain ⟨t, hmarks, hleave⟩ := m.leave_eq s r
  have hmem : ∀ x, x ∈ t.session.completed ↔ x ∈ r.session.completed ∧ x ≠ s := by
    intro x
    rw [hmarks.1, mem_withdraw]
  have htold : Untold r t := hmarks.2
  rw [hleave]
  unfold Chart.Withdraws
  split
  · next hk =>
    obtain ⟨hjournal, hreopened⟩ := m.reopenAround_spec s t
    refine ⟨fun x => ?_, fun id => ?_⟩
    · simp only [hreopened, hmem, hk, true_and, not_or, and_assoc, ne_eq]
    · rw [hjournal]
      exact htold id
  · next hk =>
    refine ⟨fun x => ?_, htold⟩
    simp [hmem, hk]

theorem leaveAll_spec (exits : List Nat) (r : Run σ) :
    (∀ x, x ∈ (exits.foldl (fun r s => m.leave s r) r).session.completed ↔
      x ∈ r.session.completed ∧ ∀ s ∈ exits, ¬ m.chart.Withdraws s x) ∧
    Untold r (exits.foldl (fun r s => m.leave s r) r) := by
  induction exits generalizing r with
  | nil => exact ⟨by simp, fun _ => rfl⟩
  | cons s rest ih =>
    obtain ⟨hmem, htold⟩ := ih (m.leave s r)
    obtain ⟨hfirst, htoldFirst⟩ := m.leave_spec s r
    refine ⟨fun x => ?_, htoldFirst.trans htold⟩
    rw [List.foldl_cons, hmem, hfirst, List.forall_mem_cons, and_assoc]

theorem sameMarks_fireAll (transitions : List Nat) (r : Run σ) :
    SameMarks r (transitions.foldl (fun r t => m.fire t r) r) :=
  (Acts.foldl (fun r t _ => (m.performs_fire t r).acts) r).sameMarks

theorem told_raiseDone (hw : m.chart.WellFormed) {p q : Nat} (hp : m.chart.IsComposite p)
    (hq : m.chart.IsComposite q) (r : Run σ) :
    m.told p (m.raiseDone q r) = m.told p r + if q = p then 1 else 0 := by
  have hiff : Event.doneName (m.chart.idOf q) = Event.doneName (m.chart.idOf p) ↔ q = p := by
    refine ⟨fun h => ?_, fun h => by rw [h]⟩
    exact hw.idOf_injective hq.lt_size hp.lt_size (String.append_right_inj _ |>.1 h)
  have htells : (Entry.raised (.plain (Event.doneName (m.chart.idOf q)) .change)).tellsDone
      (m.chart.idOf p) = decide (q = p) := by
    simp only [Entry.tellsDone, Event.plain, hiff, true_and]
  rw [told, raiseDone, Run.raise, Run.note, List.countP_cons, htells]
  simp [told, Run.mapSession]

theorem completeParallel_cases (g : Nat) (r : Run σ) :
    ((∀ x ∈ m.chart.children g, x ∈ r.session.completed) ∧ g ∉ r.session.completed ∧
      m.completeParallel g r = m.raiseDone g (r.mapSession (·.complete g))) ∨
    (((∀ x ∈ m.chart.children g, x ∈ r.session.completed) → g ∈ r.session.completed) ∧
      m.completeParallel g r = r) := by
  unfold completeParallel
  split
  · next h =>
    simp only [List.all_eq_true, decide_eq_true_eq] at h
    exact .inl ⟨h.1, h.2, rfl⟩
  · next h =>
    simp only [List.all_eq_true, decide_eq_true_eq, not_and, not_not] at h
    exact .inr ⟨h, rfl⟩

/-- That a parallel state may be complete is nothing to another state. -/
theorem completeParallel_aside (hw : m.chart.WellFormed) {g : Nat} (hg : m.chart.kind g = .parallel)
    (r : Run σ) :
    (∀ x, x ≠ g → (x ∈ (m.completeParallel g r).session.completed ↔ x ∈ r.session.completed)) ∧
      ∀ p, m.chart.IsComposite p → p ≠ g → m.told p (m.completeParallel g r) = m.told p r := by
  rcases m.completeParallel_cases g r with ⟨-, -, heq⟩ | ⟨-, heq⟩
  · rw [heq]
    refine ⟨fun x hx => StateSet.mem_insert.trans (or_iff_right hx), fun p hp hpg => ?_⟩
    rw [m.told_raiseDone hw hp (.inr hg), if_neg hpg.symm]
    rfl
  · rw [heq]
    exact ⟨fun _ _ => .rfl, fun _ _ _ => rfl⟩

/-- Entering a final state marks `y`, which is the state itself as a region or else the state around
it; then the parallel state around `y` may be complete. -/
theorem completeAround_eq (hw : m.chart.WellFormed) {s q : Nat} (hq : m.chart.parent s = some q)
    (r : Run σ) : ∃ y t, (m.chart.kind q = .parallel ∧ y = s ∨ m.chart.kind q = .compound ∧ y = q) ∧
      t.session.completed = r.session.completed.insert y ∧
      (∀ p, m.chart.IsComposite p →
        m.told p t = m.told p r + if m.chart.kind p = .compound ∧ p = q then 1 else 0) ∧
      (∀ g, m.chart.parent y = some g → m.chart.kind g = .parallel →
        m.completeAround s r = m.completeParallel g t) ∧
      ((∀ g, m.chart.parent y = some g → m.chart.kind g ≠ .parallel) →
        m.completeAround s r = t) := by
  have hcomposite := hw.parent_composite hq
  unfold completeAround
  simp only [hq]
  rcases hcomposite with hk | hk
  · refine ⟨q, m.raiseDone q (r.mapSession (·.complete q)), .inr ⟨hk, rfl⟩, rfl, ?_, ?_, ?_⟩
    · intro p hp
      have hiff : q = p ↔ m.chart.kind p = .compound ∧ p = q :=
        ⟨fun h => ⟨h ▸ hk, h.symm⟩, fun h => h.2.symm⟩
      rw [m.told_raiseDone hw hp (.inl hk)]
      simp only [hiff]
      rfl
    · intro g hg hgk
      simp [hk, hg, hgk]
    · intro hnone
      cases hg : m.chart.parent q with
      | none => simp [hk]
      | some g => simp [hk, hnone g hg]
  · refine ⟨s, r.mapSession (·.complete s), .inl ⟨hk, rfl⟩, rfl, ?_, ?_, ?_⟩
    · intro p _
      rw [if_neg]
      · rfl
      · rintro ⟨hpk, rfl⟩
        rw [hk] at hpk
        cases hpk
    · intro g hg _
      rw [hq] at hg
      cases hg
      simp [hk]
    · intro hnone
      exact absurd hk (hnone q hq)

theorem enter_eq (step : Step) (s : Nat) (r : Run σ) :
    ∃ t, SameMarks (r.mapSession (·.withdraw s)) t ∧
      m.enter step s r = if m.chart.kind s = .final then m.completeAround s t else t := by
  let entered : Run σ := m.runDefaults step s
    (m.runBlock (.entry s) s (m.chart.node s).onEntry (r.mapSession (·.withdraw s)))
  have hcontent : SameMarks (r.mapSession (·.withdraw s)) entered :=
    ((m.performs_runBlock _ _ _ _).trans (m.performs_runDefaults step s _)).acts.sameMarks
  refine ⟨if (m.chart.node s).invokes.isEmpty then entered else entered.mapSession fun session =>
    { session with pendingInvokes := session.pendingInvokes.insert s }, hcontent.trans ?_, rfl⟩
  split
  · exact .refl _
  · exact .of_eq rfl rfl

section Marks

variable {m} (hw : m.chart.WellFormed) {p : Nat} (hp : m.chart.kind p = .parallel)
  (hregions : ∀ x ∈ m.chart.children p, m.chart.kind x ≠ .parallel)

include hw hp hregions

/-- Once the parallel state `p` is looked at, its mark is right, and it is told if it is new. -/
theorem tallied_completeParallel {active : StateSet} {was : Prop} {r : Run σ}
    (h : m.chart.Lagging p active was r.session.completed) :
    m.chart.Tallied p active (m.completeParallel p r).session.completed ∧
      m.Tells p was (m.chart.Complete active p) r (m.completeParallel p r) := by
  have hall : m.chart.Complete active p ↔ ∀ x ∈ m.chart.children p, x ∈ r.session.completed := by
    rw [Chart.complete_parallel hp]
    exact forall₂_congr fun x hx => (h.regions x hx).symm
  rcases m.completeParallel_cases p r with ⟨hevery, hnot, heq⟩ | ⟨hdone, heq⟩
  · have htells : m.told p (m.raiseDone p (r.mapSession (·.complete p))) = m.told p r + 1 := by
      rw [m.told_raiseDone hw (.inr hp) (.inr hp), if_pos rfl]
      rfl
    rw [heq]
    refine ⟨?_, fun _ _ => htells, ?_⟩
    · rintro x (rfl | hx)
      · exact iff_of_true (StateSet.mem_insert.2 (.inl rfl)) (hall.2 hevery)
      · have hxp : x ≠ p := by
          rintro rfl
          exact hregions x hx hp
        exact (StateSet.mem_insert.trans (or_iff_right hxp)).trans (h.regions x hx)
    · rintro (hwas | hnever)
      · exact absurd (h.own.2 hwas) hnot
      · exact absurd (hall.2 hevery) hnever
  · have hright : m.chart.Complete active p → was := fun hp => h.own.1 (hdone (hall.1 hp))
    rw [heq]
    exact ⟨h.tallied hright, fun hnot his => absurd (hright his) hnot, fun _ => rfl⟩

/-- Another parallel state is nothing to `p`. -/
theorem lagging_completeParallel {active : StateSet} {was : Prop} {g : Nat} (hg : g ≠ p)
    (hgk : m.chart.kind g = .parallel) {r : Run σ}
    (h : m.chart.Lagging p active was r.session.completed) :
    m.chart.Lagging p active was (m.completeParallel g r).session.completed ∧
      m.told p (m.completeParallel g r) = m.told p r := by
  obtain ⟨hmem, htold⟩ := m.completeParallel_aside hw hgk r
  have hregion : ∀ x ∈ m.chart.children p, x ≠ g := by
    rintro x hx rfl
    exact hregions x hx hgk
  exact ⟨⟨fun x hx => (hmem x (hregion x hx)).trans (h.regions x hx),
    (hmem p hg.symm).trans h.own, h.mono⟩, htold p (.inr hp) hg.symm⟩

/-- A final state that is entered completes what is around it. -/
theorem tallied_completeAround {active : StateSet} {s q : Nat} (hk : m.chart.kind s = .final)
    (hq : m.chart.parent s = some q) {r : Run σ}
    (h : m.chart.Tallied p active r.session.completed) :
    m.chart.Tallied p (active.insert s) (m.completeAround s r).session.completed ∧
      m.Tells p (m.chart.Complete active p) (m.chart.Complete (active.insert s) p) r
        (m.completeAround s r) := by
  obtain ⟨y, t, hy, hcompleted, htold, hparallel, hother⟩ := m.completeAround_eq hw hq r
  have hlagging := Chart.Tallied.lagging hw hregions hp h hk hq hy
  rw [← hcompleted] at hlagging
  have hsame : m.told p t = m.told p r := by
    rw [htold p (.inr hp), if_neg]
    · rfl
    · simp [hp]
  by_cases hyp : m.chart.parent y = some p
  · rw [hparallel p hyp hp]
    obtain ⟨htallied, htells⟩ := tallied_completeParallel hw hp hregions hlagging
    exact ⟨htallied, htells.congr hsame rfl⟩
  · have hright := Chart.Tallied.not_region hw hregions hp h hk hq hy hyp
    by_cases hg : ∃ g, m.chart.parent y = some g ∧ m.chart.kind g = .parallel
    · obtain ⟨g, hg, hgk⟩ := hg
      have hgp : g ≠ p := by
        rintro rfl
        exact hyp hg
      obtain ⟨hlagging, htold⟩ := lagging_completeParallel hw hp hregions hgp hgk hlagging
      rw [hparallel g hg hgk]
      exact ⟨hlagging.tallied hright, .of_no_gain (htold.trans hsame) hright⟩
    · rw [hother (fun g hyg hgk => hg ⟨g, hyg, hgk⟩)]
      exact ⟨hlagging.tallied hright, .of_no_gain hsame hright⟩

/-- A state that is entered leaves the marks right, and it is told if it makes `p` complete. -/
theorem tallied_enter {active : StateSet} {s : Nat} (hs : s ∉ active)
    (hrooted : m.chart.Rooted active) (step : Step) {r : Run σ}
    (h : m.chart.Tallied p active r.session.completed) :
    m.chart.Tallied p (active.insert s) (m.enter step s r).session.completed ∧
      m.Tells p (m.chart.Complete active p) (m.chart.Complete (active.insert s) p) r
        (m.enter step s r) := by
  obtain ⟨t, hmarks, heq⟩ := m.enter_eq step s r
  have hsame : m.told p t = m.told p r := told_of_sameMarks hmarks p
  have ht : m.chart.Tallied p active t.session.completed := by
    intro x hx
    rw [← h x hx, hmarks.1]
    refine StateSet.mem_erase.trans (and_iff_left_of_imp ?_)
    rintro hmarked rfl
    exact Chart.Tallied.not_marked hw h hrooted hs hx hmarked
  have haside : (m.chart.kind s = .final → m.chart.parent s = none) →
      m.chart.Tallied p (active.insert s) t.session.completed ∧
        m.Tells p (m.chart.Complete active p) (m.chart.Complete (active.insert s) p) r t := by
    intro haside
    have hinsert : ∀ x, x = p ∨ x ∈ m.chart.children p → (m.chart.Complete (active.insert s) x ↔
        m.chart.Complete active x) :=
      fun x hx => Chart.complete_insert_aside hw hregions hp haside hx
    exact ⟨fun x hx => (ht x hx).trans (hinsert x hx).symm,
      .of_no_gain hsame (hinsert p (.inl rfl)).1⟩
  rw [heq]
  split
  · next hk =>
    cases hq : m.chart.parent s with
    | some q =>
      obtain ⟨htallied, htells⟩ := tallied_completeAround hw hp hregions hk hq ht
      exact ⟨htallied, htells.congr hsame rfl⟩
    | none =>
      have hnothing : m.completeAround s t = t := by
        rw [completeAround, hq]
      rw [hnothing]
      exact haside (fun _ => hq)
  · next hk => exact haside (fun h => absurd h hk)

theorem tallied_enterAll (step : Step) {active : StateSet} {entries : List Nat}
    (hopens : m.chart.Opens active entries) (hrooted : m.chart.Rooted active) {r : Run σ}
    (h : m.chart.Tallied p active r.session.completed) :
    m.chart.Tallied p (active.insertAll entries)
        (entries.foldl (fun r s => m.enter step s r) r).session.completed ∧
      m.Tells p (m.chart.Complete active p) (m.chart.Complete (active.insertAll entries) p) r
        (entries.foldl (fun r s => m.enter step s r) r) := by
  induction hopens generalizing r with
  | nil active => exact ⟨h, .of_no_gain rfl id⟩
  | @cons active s rest hs hparent _ ih =>
    obtain ⟨hentered, htells⟩ := tallied_enter hw hp hregions hs hrooted step h
    obtain ⟨htallied, htellsRest⟩ := ih (hrooted.insert hparent) hentered
    refine ⟨htallied, htells.trans htellsRest ?_ ?_⟩
    · exact .mono fun f _ hf => StateSet.mem_insert.2 (.inr hf)
    · exact .mono fun f _ hf => StateSet.mem_insertAll.2 (.inl hf)

/-- The content of a step leaves the marks right, and it is told if `p` becomes complete after the
states to leave are left. -/
theorem tallied_runContent {step : Step} {active : StateSet} (hl : m.chart.Legal active)
    (hcuts : m.chart.Cuts active step.exitList)
    (hopens : m.chart.Opens (active.diff (.ofList step.exitList)) step.entryList) {r : Run σ}
    (h : m.chart.Tallied p active r.session.completed) :
    let kept := active.diff (.ofList step.exitList)
    let entered := kept.insertAll step.entryList
    m.chart.Tallied p entered (m.runContent step r).session.completed ∧
      m.Tells p (m.chart.Complete kept p) (m.chart.Complete entered p) r (m.runContent step r) := by
  intro kept entered
  obtain ⟨hleft, htoldLeft⟩ := m.leaveAll_spec step.exitList r
  have hkept : ∀ x, x ∈ kept ↔ x ∈ active ∧ x ∉ step.exitList := by
    intro x
    rw [StateSet.mem_diff, StateSet.mem_ofList]
  have hcut := Chart.Tallied.cut hw hp hregions hcuts hkept hl hleft h
  have hfire := m.sameMarks_fireAll step.transitions
    (step.exitList.foldl (fun r s => m.leave s r) r)
  rw [← hfire.1] at hcut
  obtain ⟨htallied, htells⟩ :=
    tallied_enterAll hw hp hregions step hopens (hcuts.rooted hw hl) hcut
  exact ⟨htallied, htells.congr ((told_of_sameMarks hfire p).trans (htoldLeft _)) rfl⟩

end Marks

end Interpreter

end Statechart
