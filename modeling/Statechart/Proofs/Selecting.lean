import Statechart.Proofs.Collections
import Statechart.Proofs.Settling

/-!
What selection comes to. Every active state without children finds the first transition on its way
to the top that matches the event and is enabled; of the transitions found, each is kept that leaves
nothing left by one kept before it. This is said here without the verdicts that are remembered along
the way. They matter only for what is told: a guard is asked for the first time that a state comes
to its transition, and never again.
-/

namespace Statechart

variable {σ : Type}

/-- The run once `entries` have been noted, oldest first. -/
def Run.tell (r : Run σ) (entries : List Entry) : Run σ :=
  { r with journal := entries.reverse ++ r.journal }

theorem Run.tell_nil (r : Run σ) : r.tell [] = r := rfl

theorem Run.tell_tell (r : Run σ) (xs ys : List Entry) :
    (r.tell xs).tell ys = r.tell (xs ++ ys) := by
  simp [Run.tell]

/-- The members of `xs` that are not among `seen`, each of them once. -/
def unseen (seen xs : List Nat) : List Nat :=
  xs.eraseDups.filter (fun x => decide (x ∉ seen))

@[simp] theorem unseen_nil (seen : List Nat) : unseen seen [] = [] := rfl

theorem unseen_of_nil (xs : List Nat) : unseen [] xs = xs.eraseDups := by
  simp [unseen]

theorem unseen_cons_of_mem {seen : List Nat} {x : Nat} (h : x ∈ seen) (xs : List Nat) :
    unseen seen (x :: xs) = unseen seen xs := by
  unfold unseen
  rw [List.eraseDups_cons, List.filter_cons_of_neg (by simpa using h), eraseDups_filter,
    List.filter_filter]
  refine List.filter_congr fun y _ => ?_
  have hne : y ∉ seen → y ≠ x := fun hy heq => hy (heq ▸ h)
  by_cases hy : y ∈ seen
  · simp [hy]
  · simp [hy, hne hy]

theorem unseen_cons_of_not_mem {seen : List Nat} {x : Nat} (h : x ∉ seen) (xs : List Nat) :
    unseen seen (x :: xs) = x :: unseen (x :: seen) xs := by
  unfold unseen
  rw [List.eraseDups_cons, List.filter_cons_of_pos (by simpa using h), eraseDups_filter,
    List.filter_filter]
  congr 1
  refine List.filter_congr fun y _ => ?_
  by_cases hy : y = x <;> simp [hy, h]

theorem unseen_append (seen xs ys : List Nat) :
    unseen seen (xs ++ ys) = unseen seen xs ++ unseen (xs ++ seen) ys := by
  unfold unseen
  rw [List.eraseDups_append, List.filter_append, List.removeAll, eraseDups_filter,
    List.filter_filter]
  congr 1
  refine List.filter_congr fun y _ => ?_
  simp [and_comm]

/-- The transitions `t` and `u` leave nothing in common. -/
def Chart.exitsDisjoint (c : Chart) (active : StateSet) (t u : Nat) : Bool :=
  (c.exitSet (c.transition t) active).isDisjoint (c.exitSet (c.transition u) active)

/-- Keeps in order each of `ts` that has nothing to leave in common with `kept` and with those kept
before it. -/
def Chart.keepFrom (c : Chart) (active : StateSet) (kept ts : List Nat) : List Nat :=
  ts.foldl (fun kept t => if kept.all (c.exitsDisjoint active · t) then kept ++ [t] else kept) kept

namespace Interpreter

variable (m : Interpreter σ)

/-- Whether a transition may fire as far as its guard is concerned; one that fails does not hold. -/
def enables (r : Run σ) (t : Nat) : Bool :=
  match (m.chart.transition t).condition with
  | none => true
  | some condition =>
    match m.evaluator.holds (m.viewOf r (m.chart.transition t).source) condition with
    | .ok verdict => verdict
    | .error _ => false

/-- The transition that the state `s` finds. -/
def foundBy (event : Option String) (r : Run σ) (s : Nat) : Option Nat :=
  ((m.chart.branch s).flatMap (fun a => (m.chart.node a).transitions)).find?
    (fun t => (m.chart.transition t).matches event && m.enables r t)

/-- The transitions that the active states without children find, each of them once. -/
def found (event : Option String) (r : Run σ) : List Nat :=
  (r.session.status.states.members.filterMap (m.foundBy event r)).eraseDups

/-- The members of `ts` up to the first that is enabled. -/
def lookedAt (r : Run σ) : List Nat → List Nat
  | [] => []
  | t :: rest => if m.enables r t then [t] else t :: lookedAt r rest

/-- The transitions whose guards are asked for, in order. -/
def asked (event : Option String) (r : Run σ) : List Nat :=
  ((r.session.status.states.members.flatMap fun s => m.lookedAt r (m.chart.matching event s)).filter
    (fun t => (m.chart.transition t).condition.isSome)).eraseDups

/-- What is told of a guard when it is asked for. -/
def guardStory (r : Run σ) (t : Nat) : List Entry :=
  match (m.chart.transition t).condition with
  | none => []
  | some condition =>
    match m.evaluator.holds (m.viewOf r (m.chart.transition t).source) condition with
    | .ok _ => [.guarded t]
    | .error e => [.guarded t, .report
        ⟨.expressionError, e.message, some (m.chart.idOf (m.chart.transition t).source)⟩]

/-- What is told of a transition that is dropped, given with the one that it gives way to. -/
def dropStory (dropped : Nat × Nat) : Entry :=
  let source := m.chart.idOf (m.chart.transition dropped.1).source
  .report ⟨.nonDeterministic,
    "transition t" ++ toString dropped.1 ++ " from '" ++ source ++ "' conflicts with t" ++
      toString dropped.2 ++ " and is dropped",
    some source⟩

section Found

variable {m} {r : Run σ}

theorem guardHolds_tell (t : Nat) (told : List Entry) :
    m.guardHolds t (r.tell told) = (m.enables r t, r.tell (told ++ m.guardStory r t)) := by
  unfold guardHolds enables guardStory
  cases hcondition : (m.chart.transition t).condition with
  | none => simp [hcondition]
  | some condition =>
    have hview : m.viewOf (r.tell told) (m.chart.transition t).source =
      m.viewOf r (m.chart.transition t).source := rfl
    simp only [hcondition, hview]
    cases m.evaluator.holds (m.viewOf r (m.chart.transition t).source) condition with
    | ok verdict => simp [Run.note, Run.tell]
    | error e => simp [Run.note, Run.report, Run.tell]

/-- The verdicts are those on the guards of the transitions `seen`. -/
def Recalls (m : Interpreter σ) (r : Run σ) (seen : List Nat) (verdicts : Verdicts) : Prop :=
  ∀ t, verdicts.get? t = if t ∈ seen then some (m.enables r t) else none

theorem Recalls.congr {seen seen' : List Nat} {verdicts : Verdicts} (h : m.Recalls r seen verdicts)
    (hsame : ∀ t, t ∈ seen' ↔ t ∈ seen) : m.Recalls r seen' verdicts := by
  intro t
  rw [h t]
  simp [hsame t]

theorem Recalls.insert {seen : List Nat} {verdicts : Verdicts} (h : m.Recalls r seen verdicts)
    (t : Nat) : m.Recalls r (t :: seen) (verdicts.insert t (m.enables r t)) := by
  intro u
  rw [SortedMap.get?_insert, h u]
  by_cases hu : u = t <;> simp [hu]

theorem firstEnabled_tell (ts : List Nat) {seen : List Nat} {verdicts : Verdicts}
    (h : m.Recalls r seen verdicts) (told : List Entry) :
    ∃ verdicts', m.firstEnabled ts verdicts (r.tell told) =
        (ts.find? (m.enables r), verdicts',
          r.tell (told ++ (unseen seen (m.lookedAt r ts)).flatMap (m.guardStory r))) ∧
      m.Recalls r (m.lookedAt r ts ++ seen) verdicts' := by
  induction ts generalizing seen verdicts told with
  | nil => exact ⟨verdicts, by simp [firstEnabled, lookedAt], h⟩
  | cons t rest ih =>
    have hverdict := h t
    unfold firstEnabled lookedAt
    by_cases hseen : t ∈ seen
    · rw [if_pos hseen] at hverdict
      rw [hverdict]
      cases henables : m.enables r t with
      | true =>
        refine ⟨verdicts, ?_, h.congr ?_⟩
        · simp [henables, unseen_cons_of_mem hseen]
        · simp [hseen]
      | false =>
        obtain ⟨verdicts', hrest, hrecalls⟩ := ih h told
        refine ⟨verdicts', ?_, hrecalls.congr ?_⟩
        · simpa [henables, unseen_cons_of_mem hseen] using hrest
        · simp [hseen]
    · rw [if_neg hseen] at hverdict
      rw [hverdict]
      simp only [guardHolds_tell]
      have hinserted := h.insert t
      cases henables : m.enables r t with
      | true =>
        rw [henables] at hinserted
        refine ⟨_, ?_, hinserted⟩
        simp [henables, unseen_cons_of_not_mem hseen]
      | false =>
        rw [henables] at hinserted
        obtain ⟨verdicts', hrest, hrecalls⟩ := ih hinserted (told ++ m.guardStory r t)
        refine ⟨verdicts', ?_, hrecalls.congr ?_⟩
        · simpa [henables, unseen_cons_of_not_mem hseen] using hrest
        · grind

theorem enabled_tell (candidates : List Candidate) {seen : List Nat} {verdicts : Verdicts}
    (h : m.Recalls r seen verdicts) (told : List Entry) :
    m.enabled candidates verdicts (r.tell told) =
      ((candidates.filterMap
          (fun candidate => candidate.transitions.find? (m.enables r))).eraseDups,
        r.tell (told ++ (unseen seen (candidates.flatMap
          (fun candidate => m.lookedAt r candidate.transitions))).flatMap (m.guardStory r))) := by
  induction candidates generalizing seen verdicts told with
  | nil => simp [enabled]
  | cons candidate rest ih =>
    obtain ⟨verdicts', hfirst, hrecalls⟩ := firstEnabled_tell candidate.transitions h told
    unfold enabled
    rw [hfirst]
    dsimp only
    rw [ih hrecalls, List.flatMap_cons, unseen_append, List.flatMap_append, List.append_assoc]
    cases hfound : candidate.transitions.find? (m.enables r) with
    | none => simp [hfound]
    | some t =>
      simp only [List.filterMap_cons, hfound, List.eraseDups_cons, eraseDups_filter]
      rfl

/-- The candidates find what the active states without children find, and look at the same. -/
theorem filterMap_candidates (event : Option String) :
    (m.chart.candidates event r.session.status.states).filterMap
        (fun candidate => candidate.transitions.find? (m.enables r)) =
      r.session.status.states.members.filterMap (m.foundBy event r) := by
  have hfound : ∀ s, m.foundBy event r s = (m.chart.matching event s).find? (m.enables r) := by
    intro s
    rw [foundBy, Chart.matching, ← List.filter_flatMap, List.find?_filter]
    simp
  unfold Chart.candidates
  rw [List.filterMap_filter, List.filterMap_map]
  refine List.filterMap_congr fun s _ => ?_
  rw [hfound]
  cases hmatching : m.chart.matching event s <;> simp [hmatching]

theorem flatMap_candidates (event : Option String) :
    (m.chart.candidates event r.session.status.states).flatMap
        (fun candidate => m.lookedAt r candidate.transitions) =
      r.session.status.states.members.flatMap
        (fun s => m.lookedAt r (m.chart.matching event s)) := by
  unfold Chart.candidates
  induction r.session.status.states.members with
  | nil => rfl
  | cons s rest ih =>
    rw [List.map_cons, List.flatMap_cons, ← ih]
    cases hmatching : m.chart.matching event s <;> simp [lookedAt]

/-- Without a guard there is nothing to tell. -/
theorem flatMap_guardStory (ts : List Nat) :
    (ts.filter (fun t => (m.chart.transition t).condition.isSome)).flatMap (m.guardStory r) =
      ts.flatMap (m.guardStory r) := by
  induction ts with
  | nil => rfl
  | cons t rest ih =>
    cases hcondition : (m.chart.transition t).condition with
    | none => simp [hcondition, guardStory, ih]
    | some condition => simp [hcondition, ih]

theorem enabled_eq (event : Option String) :
    m.enabled (m.chart.candidates event r.session.status.states) ∅ r =
      (m.found event r, r.tell ((m.asked event r).flatMap (m.guardStory r))) := by
  have hnone : m.Recalls r [] ∅ := fun t => by simp
  have henabled := enabled_tell (m.chart.candidates event r.session.status.states) hnone []
  rw [Run.tell_nil, filterMap_candidates, flatMap_candidates, unseen_of_nil, List.nil_append,
    ← flatMap_guardStory, ← eraseDups_filter] at henabled
  exact henabled

end Found

section Kept

variable {c : Chart} {active : StateSet}

theorem keepFrom_cons_of_all {kept : List Nat} {t : Nat}
    (h : ∀ w ∈ kept, c.exitsDisjoint active w t = true) (rest : List Nat) :
    c.keepFrom active kept (t :: rest) = c.keepFrom active (kept ++ [t]) rest := by
  rw [Chart.keepFrom, List.foldl_cons, if_pos (List.all_eq_true.2 h)]
  rfl

theorem keepFrom_cons_of_not {kept : List Nat} {t w : Nat} (hw : w ∈ kept)
    (h : c.exitsDisjoint active w t = false) (rest : List Nat) :
    c.keepFrom active kept (t :: rest) = c.keepFrom active kept rest := by
  have hnot : ¬ kept.all (c.exitsDisjoint active · t) = true := by
    intro hall
    simp [List.all_eq_true.1 hall w hw] at h
  rw [Chart.keepFrom, List.foldl_cons, if_neg hnot]
  rfl

/-- Whether `t` is kept after `kept`. -/
theorem exitsDisjoint_cases (kept : List Nat) (t : Nat) :
    (∀ w ∈ kept, c.exitsDisjoint active w t = true) ∨
      ∃ w ∈ kept, c.exitsDisjoint active w t = false := by
  by_cases h : ∀ w ∈ kept, c.exitsDisjoint active w t = true
  · exact .inl h
  · exact .inr (by simpa using h)

theorem keepFrom_sublist (kept ts : List Nat) :
    (c.keepFrom active kept ts).Sublist (kept ++ ts) := by
  induction ts generalizing kept with
  | nil => simp [Chart.keepFrom]
  | cons t rest ih =>
    rcases exitsDisjoint_cases kept t with hall | ⟨w, hw, hconflict⟩
    · rw [keepFrom_cons_of_all hall]
      simpa using ih (kept ++ [t])
    · rw [keepFrom_cons_of_not hw hconflict]
      exact (ih kept).trans ((List.Sublist.refl kept).append (List.sublist_cons_self t rest))

theorem mem_keepFrom (kept ts : List Nat) {w : Nat} (hw : w ∈ kept) :
    w ∈ c.keepFrom active kept ts := by
  induction ts generalizing kept with
  | nil => exact hw
  | cons t rest ih =>
    rcases exitsDisjoint_cases kept t with hall | ⟨v, hv, hconflict⟩
    · rw [keepFrom_cons_of_all hall]
      exact ih (kept ++ [t]) (List.mem_append_left _ hw)
    · rw [keepFrom_cons_of_not hv hconflict]
      exact ih kept hw

/-- What is kept has nothing to leave in common. -/
theorem pairwise_keepFrom {kept : List Nat} (ts : List Nat)
    (h : kept.Pairwise (fun t u => c.exitsDisjoint active t u = true)) :
    (c.keepFrom active kept ts).Pairwise (fun t u => c.exitsDisjoint active t u = true) := by
  induction ts generalizing kept with
  | nil => exact h
  | cons t rest ih =>
    rcases exitsDisjoint_cases kept t with hall | ⟨w, hw, hconflict⟩
    · rw [keepFrom_cons_of_all hall]
      refine ih (List.pairwise_append.2 ⟨h, List.pairwise_singleton _ t, ?_⟩)
      intro w hw u hu
      rw [List.mem_singleton.1 hu]
      exact hall w hw
    · rw [keepFrom_cons_of_not hw hconflict]
      exact ih h

/-- What becomes of `ts` after `kept`: those that are not kept are `dropped`, in order and each with
one that was found earlier, is kept, and has something to leave in common with it. -/
structure Drops (c : Chart) (active : StateSet) (kept ts : List Nat) (dropped : List (Nat × Nat)) :
    Prop where
  rest : dropped.map Prod.fst = ts.filter (fun t => decide (t ∉ c.keepFrom active kept ts))
  reason : ∀ t w, (t, w) ∈ dropped → w ∈ c.keepFrom active kept ts ∧
    [w, t].Sublist (kept ++ ts) ∧ c.exitsDisjoint active w t = false

theorem Drops.nil (kept : List Nat) : Drops c active kept [] [] where
  rest := rfl
  reason _ _ h := absurd h List.not_mem_nil

theorem Drops.keep {kept rest : List Nat} {t : Nat} {dropped : List (Nat × Nat)}
    (h : Drops c active (kept ++ [t]) rest dropped)
    (hall : ∀ w ∈ kept, c.exitsDisjoint active w t = true) :
    Drops c active kept (t :: rest) dropped where
  rest := by
    have hkept : t ∈ c.keepFrom active (kept ++ [t]) rest := mem_keepFrom _ _ (by simp)
    rw [keepFrom_cons_of_all hall, List.filter_cons_of_neg (by simpa using hkept)]
    exact h.rest
  reason u w hdropped := by
    rw [keepFrom_cons_of_all hall]
    simpa using h.reason u w hdropped

theorem Drops.drop {kept rest : List Nat} {t w : Nat} {dropped : List (Nat × Nat)}
    (h : Drops c active kept rest dropped) (hw : w ∈ kept)
    (hconflict : c.exitsDisjoint active w t = false) (hnew : t ∉ kept ++ rest) :
    Drops c active kept (t :: rest) ((t, w) :: dropped) where
  rest := by
    have hnot : t ∉ c.keepFrom active kept rest :=
      fun hkept => hnew ((keepFrom_sublist kept rest).subset hkept)
    rw [keepFrom_cons_of_not hw hconflict, List.filter_cons_of_pos (by simpa using hnot), ← h.rest]
    rfl
  reason u v hdropped := by
    rw [keepFrom_cons_of_not hw hconflict]
    rcases List.mem_cons.1 hdropped with heq | hdropped
    · obtain ⟨rfl, rfl⟩ := Prod.mk.inj heq
      have hbefore : [v].Sublist kept := List.singleton_sublist.2 hw
      have hafter : [u].Sublist (u :: rest) := List.singleton_sublist.2 (by simp)
      exact ⟨mem_keepFrom _ _ hw, hbefore.append hafter, hconflict⟩
    · obtain ⟨hkept, hearlier, hwhy⟩ := h.reason u v hdropped
      have hmore : (kept ++ rest).Sublist (kept ++ t :: rest) :=
        (List.Sublist.refl kept).append (List.sublist_cons_self t rest)
      exact ⟨hkept, hearlier.trans hmore, hwhy⟩

variable {m : Interpreter σ} {r : Run σ}

/-- Of the transitions left over, each is told of together with the one that it gives way to. -/
theorem dropConflicts_tell (active : StateSet) {kept ts : List Nat} (hnodup : (kept ++ ts).Nodup)
    (told : List Entry) :
    ∃ dropped, m.dropConflicts active
        (kept.map (fun w => (w, m.chart.exitSet (m.chart.transition w) active))) ts (r.tell told) =
        (m.chart.keepFrom active kept ts, r.tell (told ++ dropped.map m.dropStory)) ∧
      Drops m.chart active kept ts dropped := by
  induction ts generalizing kept told with
  | nil => exact ⟨[], by simp [dropConflicts, Chart.keepFrom, Function.comp_def], .nil kept⟩
  | cons t rest ih =>
    have hsearch : (fun k : Nat × StateSet => !k.2.isDisjoint (m.chart.exitSet
        (m.chart.transition t) active)) ∘ (fun w => (w, m.chart.exitSet (m.chart.transition w)
        active)) = fun w => !m.chart.exitsDisjoint active w t := rfl
    unfold dropConflicts
    dsimp only
    rw [List.find?_map, hsearch]
    cases hfind : kept.find? (fun w => !m.chart.exitsDisjoint active w t) with
    | none =>
      have hall : ∀ w ∈ kept, m.chart.exitsDisjoint active w t = true := by
        intro w hw
        simpa using List.find?_eq_none.1 hfind w hw
      have hnodup' : (kept ++ [t] ++ rest).Nodup := by simpa using hnodup
      obtain ⟨dropped, hrest, hdrops⟩ := ih hnodup' told
      refine ⟨dropped, ?_, hdrops.keep hall⟩
      rw [keepFrom_cons_of_all hall, ← hrest]
      simp
    | some w =>
      have hw : w ∈ kept := List.mem_of_find?_eq_some hfind
      have hconflict : m.chart.exitsDisjoint active w t = false := by
        simpa using List.find?_some hfind
      have hnew : t ∉ kept ++ rest := (List.nodup_middle.1 hnodup).notMem
      have hnodup' : (kept ++ rest).Nodup := (List.nodup_middle.1 hnodup).of_cons
      obtain ⟨dropped, hrest, hdrops⟩ := ih hnodup' (told ++ [m.dropStory (t, w)])
      refine ⟨(t, w) :: dropped, ?_, hdrops.drop hw hconflict hnew⟩
      rw [keepFrom_cons_of_not hw hconflict, List.map_cons,
        List.append_cons told (m.dropStory (t, w)), ← hrest, ← Run.tell_tell]
      rfl

end Kept

/-- A microstep fires what is selected for it. -/
theorem transitions_microstep {m : Interpreter σ} {event : Option Event} {r s : Run σ} {step : Step}
    (h : m.microstep event r = (.ok step, s)) : step.transitions = (m.selectFor event r).1 := by
  have hstep := m.microstep_spec event r
  generalize m.microstep event r = out at hstep h
  cases hstep with
  | idle hselect hnone _ _ =>
    obtain ⟨⟨rfl⟩, -⟩ := Prod.mk.inj h
    rw [hselect]
    simpa [Step.hasFired] using hnone
  | refused _ _ _ => cases h
  | fired hselect _ _ _ htransitions =>
    obtain ⟨conf, -, -, rfl⟩ := m.carryOut_ok h
    rw [hselect]
    exact htransitions

/-- What selection comes to, and what is told of it. -/
theorem selectFor_tell (m : Interpreter σ) (event : Option Event) (r : Run σ) :
    let bound := r.mapSession (·.bindEvent event)
    let active := r.session.status.states
    let found := m.found (event.map Event.name) bound
    let asked := m.asked (event.map Event.name) bound
    ∃ dropped, m.selectFor event r = (m.chart.keepFrom active [] found,
        bound.tell (asked.flatMap (m.guardStory bound) ++ dropped.map m.dropStory)) ∧
      Drops m.chart active [] found dropped := by
  intro bound active found asked
  have henabled : m.enabled (m.chart.candidates (event.map Event.name) active) ∅ bound =
      (found, bound.tell (asked.flatMap (m.guardStory bound))) :=
    enabled_eq (m := m) (r := bound) (event.map Event.name)
  have hstart : ([] ++ found).Nodup := nodup_eraseDups _
  obtain ⟨dropped, hkept, hdrops⟩ := dropConflicts_tell (m := m) (r := bound) active hstart
    (asked.flatMap (m.guardStory bound))
  refine ⟨dropped, ?_, hdrops⟩
  change m.select (m.chart.candidates (event.map Event.name) active) active bound = _
  rw [select, henabled]
  exact hkept

/-- Selection without what is remembered on the way. What fires is what the active states without
children find, less everything that has something to leave in common with what was found and kept
before it. The session stays as it is but for the event that is bound. Told are the guards that are
asked for, each of them once, with its failure if it fails; and then the transitions that are
dropped, each of them once, with one found earlier that is kept and has something to leave in common
with it. -/
theorem selectFor_spec (m : Interpreter σ) (event : Option Event) (r : Run σ) :
    let bound := r.mapSession (·.bindEvent event)
    let active := r.session.status.states
    let found := m.found (event.map Event.name) bound
    let asked := m.asked (event.map Event.name) bound
    let kept := m.chart.keepFrom active [] found
    (∃ dropped, m.selectFor event r =
        (kept, bound.tell (asked.flatMap (m.guardStory bound) ++ dropped.map m.dropStory)) ∧
      Drops m.chart active [] found dropped) ∧
    found.Nodup ∧ asked.Nodup ∧
    kept.Pairwise (fun t u => m.chart.exitsDisjoint active t u = true) ∧
    ∀ step s, m.microstep event r = (.ok step, s) → step.transitions = kept := by
  intro bound active found asked kept
  obtain ⟨dropped, hselect, hdrops⟩ := m.selectFor_tell event r
  refine ⟨⟨dropped, hselect, hdrops⟩, nodup_eraseDups _, nodup_eraseDups _,
    pairwise_keepFrom found .nil, ?_⟩
  intro step s hstep
  rw [transitions_microstep hstep, hselect]

end Interpreter

end Statechart
