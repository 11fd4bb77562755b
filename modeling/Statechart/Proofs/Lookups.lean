import Mathlib.Data.List.Find
import Statechart.Proofs.Chart.Tree
import Statechart.Proofs.Scopes

/-!
Looking up variables. The scopes of a session are nested as its states are: the way outward from
the scope of a state leads through the scopes of the states around it to that of the chart, and last
to that of the system. So what a state reads can be said by the states, and the chart, that declare
the variable, whatever numbers their scopes have.
-/

namespace Statechart

namespace Scopes

variable {scopes : Scopes}

theorem walk_congr {s t : Scopes} (h : t.shape = s.shape) (steps n : Nat) :
    t.walk steps n = s.walk steps n := by
  induction steps generalizing n with
  | zero => rfl
  | succ steps ih => rw [walk, walk, parent_eq_shape, h, ← parent_eq_shape, funext ih]

/-- The ways outward depend on the parents of the scopes alone. -/
theorem chain_congr {s t : Scopes} (h : t.shape = s.shape) (n : Nat) : t.chain n = s.chain n :=
  walk_congr h n n

/-- No way outward is longer than the number of the scope in which it begins. -/
theorem Rooted.walk_eq_chain (h : scopes.Rooted) (hfirst : scopes.parent 0 = none) {steps n : Nat}
    (hn : n < scopes.frames.length) (hsteps : n ≤ steps) :
    scopes.walk steps n = scopes.chain n := by
  induction n using Nat.strong_induction_on generalizing steps with
  | _ n ih =>
    by_cases hzero : n = 0
    · subst hzero
      cases steps <;> simp [chain, walk, hfirst]
    · obtain ⟨p, hp, hparent⟩ := h n hn hzero
      have hwalk : ∀ k, n ≤ k + 1 → scopes.walk (k + 1) n = n :: scopes.chain p := by
        intro k hk
        have hpn : p < scopes.frames.length := Nat.lt_trans hp hn
        rw [walk, hparent, ← ih p hp hpn (Nat.le_of_lt_succ (Nat.lt_of_lt_of_le hp hk))]
      obtain ⟨k, rfl⟩ := Nat.exists_eq_succ_of_ne_zero hzero
      obtain ⟨j, rfl⟩ := Nat.exists_eq_add_of_le' (Nat.lt_of_lt_of_le (Nat.succ_pos k) hsteps)
      exact (hwalk j hsteps).trans (hwalk k (Nat.le_refl _)).symm

/-- The way outward from a scope goes on as that from its parent. -/
theorem Rooted.chain_of_parent (h : scopes.Rooted) (hfirst : scopes.parent 0 = none) {n p : Nat}
    (hn : n < scopes.frames.length) (hparent : scopes.parent n = some p) :
    scopes.chain n = n :: scopes.chain p := by
  have hne : n ≠ 0 := by
    rintro rfl
    rw [hfirst] at hparent
    cases hparent
  obtain ⟨q, hq, hparent'⟩ := h n hn hne
  obtain rfl : p = q := Option.some.inj (hparent.symm.trans hparent')
  obtain ⟨k, rfl⟩ := Nat.exists_eq_succ_of_ne_zero hne
  rw [← h.walk_eq_chain hfirst (Nat.lt_trans hq hn) (Nat.le_of_lt_succ hq), chain, walk, hparent]

/-- A variable is read where it is declared. -/
theorem get?_eq_holder? (scopes : Scopes) (n : Nat) (name : String) :
    scopes.get? n name =
      (scopes.holder? n name).bind (fun k => (scopes.vars k).get? name) := by
  unfold get? holder?
  induction scopes.chain n with
  | nil => rfl
  | cons k rest ih =>
    rw [List.findSome?_cons, List.find?_cons, hasLocal, SortedMap.contains]
    cases hvalue : (scopes.vars k).get? name with
    | some value => simp [hvalue]
    | none => exact ih

variable {k : Nat} {name : String}

theorem lt_length_of_hasLocal (h : scopes.hasLocal k name = true) : k < scopes.frames.length := by
  by_contra hle
  rw [hasLocal, vars_of_le (Nat.le_of_not_lt hle)] at h
  cases h

/-- Overwriting a variable declares none. -/
theorem hasLocal_setLocal (h : scopes.hasLocal k name = true) (value : Json.Value) (n : Nat)
    (other : String) :
    (scopes.setLocal k name value).hasLocal n other = scopes.hasLocal n other := by
  rw [hasLocal, hasLocal, vars_setLocal (lt_length_of_hasLocal h)]
  split
  · next hn =>
    subst hn
    by_cases hother : other = name
    · subst hother
      rw [hasLocal] at h
      rw [h, SortedMap.contains, SortedMap.get?_insert, if_pos rfl]
      rfl
    · rw [SortedMap.contains, SortedMap.get?_insert, if_neg hother]
      rfl
  · rfl

theorem holder?_setLocal (h : scopes.hasLocal k name = true) (value : Json.Value) (n : Nat)
    (other : String) :
    (scopes.setLocal k name value).holder? n other = scopes.holder? n other := by
  rw [holder?, holder?, chain_congr (shape_setLocal k name value)]
  exact List.find?_congr fun j _ => hasLocal_setLocal h value j other

/-- Once a variable is overwritten in the scope `k`, the new value is read from where this is the
innermost scope that declares it, and everything else is read as before. -/
theorem get?_setLocal (h : scopes.hasLocal k name = true) (value : Json.Value) (n : Nat)
    (other : String) :
    (scopes.setLocal k name value).get? n other =
      if other = name ∧ scopes.holder? n name = some k then some value
      else scopes.get? n other := by
  rw [get?_eq_holder?, get?_eq_holder?, holder?_setLocal h]
  by_cases hother : other = name
  · subst hother
    cases hholder : scopes.holder? n other with
    | none => simp
    | some j =>
      by_cases hj : j = k
      · subst hj
        have hlt : j < scopes.frames.length := by
          by_contra hle
          rw [hasLocal, vars_of_le (Nat.le_of_not_lt hle)] at h
          cases h
        simp [vars_setLocal hlt, SortedMap.get?_insert]
      · simp [setLocal, vars_modifyVars_of_ne hj, hj]
  · have hsame : ∀ vars : Vars, (vars.insert name value).get? other = vars.get? other := by
      intro vars
      rw [SortedMap.get?_insert, if_neg hother]
    rw [if_neg (fun hboth => hother hboth.1)]
    exact congrArg _ (funext fun j => get?_vars_modifyVars hsame k j)

end Scopes

namespace Session

/-- The scopes laid out are nested as the states are, as far as these have scopes; the scopes that
were there before stay as they are. -/
theorem parent_layOut {c : Chart} (hparent : ∀ {s p}, c.parent s = some p → p < s)
    {states : List Nat} (hstates : states.Pairwise (· < ·)) (laid : SortedMap Nat Nat × Scopes)
    (hlength : globalScope < laid.2.frames.length)
    (hhomes : ∀ {s n}, laid.1.get? s = some n → n < laid.2.frames.length) :
    (∀ n, n < laid.2.frames.length → (layOut c states laid).2.parent n = laid.2.parent n) ∧
      ∀ s ∈ states, ∀ n, (layOut c states laid).1.get? s = some n →
        (layOut c states laid).2.parent n =
          some (((c.parent s).bind (layOut c states laid).1.get?).getD globalScope) := by
  induction states generalizing laid with
  | nil => exact ⟨fun _ _ => rfl, fun _ hs => nomatch hs⟩
  | cons s rest ih =>
    obtain ⟨hfirst, hrest⟩ := List.pairwise_cons.1 hstates
    let around := ((c.parent s).bind laid.1.get?).getD globalScope
    let next : SortedMap Nat Nat × Scopes :=
      (laid.1.insert s laid.2.frames.length, (laid.2.create (some around)).2)
    have haround : around < laid.2.frames.length := by
      cases hhome : (c.parent s).bind laid.1.get? with
      | none => simpa [around, hhome] using hlength
      | some n =>
        obtain ⟨p, -, hp⟩ := Option.bind_eq_some_iff.1 hhome
        simpa [around, hhome] using hhomes hp
    have hnext : next.2.frames.length = laid.2.frames.length + 1 := Scopes.length_create _
    have hhomesNext : ∀ {x n}, next.1.get? x = some n → n < next.2.frames.length := by
      intro x n hx
      rw [SortedMap.get?_insert] at hx
      split at hx
      · cases hx
        omega
      · have hn := hhomes hx
        omega
    obtain ⟨hkept, hnew⟩ := ih hrest next (by omega) hhomesNext
    -- The states before the rest keep their scopes.
    have hhome : ∀ x ≤ s, (layOut c rest next).1.get? x = next.1.get? x := by
      intro x hx
      refine (layOut_spec c rest next (hrest.imp Nat.ne_of_lt)).2.2.1 x ?_
      intro hmem
      exact absurd (hfirst x hmem) (Nat.not_lt.2 hx)
    refine ⟨fun n hn => ?_, List.forall_mem_cons.2 ⟨fun n hn => ?_, hnew⟩⟩
    · refine (hkept n (by omega)).trans ?_
      rw [Scopes.parent_create, if_neg (Nat.ne_of_lt hn)]
    · have hn : (layOut c rest next).1.get? s = some n := hn
      rw [hhome s (Nat.le_refl s), SortedMap.get?_insert, if_pos rfl] at hn
      obtain rfl := Option.some.inj hn
      refine (hkept _ (by omega)).trans ?_
      have hbefore : (c.parent s).bind (layOut c rest next).1.get? =
          (c.parent s).bind laid.1.get? := by
        refine Option.bind_congr fun p hp => ?_
        have hlt := hparent hp
        rw [hhome p (Nat.le_of_lt hlt), SortedMap.get?_insert, if_neg (Nat.ne_of_lt hlt)]
      rw [Scopes.parent_create, if_pos rfl]
      change _ = some (((c.parent s).bind (layOut c rest next).1.get?).getD globalScope)
      rw [hbefore]
      simp [Option.filter, haround, around]

/-- The scopes are nested as the states are, inside those of the chart and of the system. -/
structure Nested (c : Chart) (staged : SortedMap Nat Nat × Scopes) : Prop where
  system : staged.2.parent systemScope = none
  chart : staged.2.parent globalScope = some systemScope
  state : ∀ {s n}, staged.1.get? s = some n →
    staged.2.parent n = some (((c.parent s).bind staged.1.get?).getD globalScope)
  around : ∀ {s n p}, staged.1.get? s = some n → c.parent s = some p →
    ∃ k, staged.1.get? p = some k

theorem nested_stage {c : Chart} (hw : c.WellFormed) (layout : Option Bool) :
    Nested c (stage c layout) := by
  match layout with
  | none | some true => exact ⟨rfl, rfl, (fun h => nomatch h), (fun h => nomatch h)⟩
  | some false =>
    let states := c.states.filter (fun s => !c.isPseudo s)
    have hordinary : ∀ s, c.Ordinary s → s ∈ states := by
      intro s hs
      exact List.mem_filter.2 ⟨List.mem_range.2 hs.1, by simp [hs.2]⟩
    have hstates : states.Pairwise (· < ·) := List.pairwise_lt_range.filter _
    have hnodup : states.Nodup := hstates.imp Nat.ne_of_lt
    obtain ⟨hkept, hnew⟩ :=
      parent_layOut hw.parent_lt hstates (∅, ground) (by decide) (fun h => nomatch h)
    refine ⟨hkept systemScope (by decide), hkept globalScope (by decide), ?_, ?_⟩
    · intro s n hs
      obtain ⟨i, hi, rfl, -⟩ := home_layOut hnodup hs
      exact hnew _ (List.getElem_mem hi) n hs
    · intro s n p _ hp
      obtain ⟨i, hi, rfl⟩ :=
        List.getElem_of_mem (hordinary p (hw.parent_composite hp).ordinary)
      exact ⟨_, (layOut_spec c states (∅, ground) hnodup).2.2.2 i hi⟩

end Session

/-- Where variables are declared. -/
inductive Place where
  | state (s : Nat)
  | chart
  deriving DecidableEq

/-- The places whose variables the state `s` sees, innermost first: the state itself, the states
around it, and the chart. -/
def Chart.placesAround (c : Chart) (s : Nat) : List Place :=
  (c.branch s).map .state ++ [.chart]

namespace Session

/-- The scope of a place, if it has one of its own. -/
def home? (session : Session) : Place → Option Nat
  | .state s => session.homes.get? s
  | .chart => some globalScope

/-- The place has a scope of its own that declares the variable. -/
def declares (session : Session) (name : String) (place : Place) : Bool :=
  (session.home? place).any (fun n => session.scopes.hasLocal n name)

/-- The nearest place that declares the variable, seen from the state `s`. -/
def declarer? (session : Session) (c : Chart) (name : String) (s : Nat) : Option Place :=
  (c.placesAround s).find? (session.declares name)

namespace LaidOut

variable {c : Chart} {layout : Option Bool} {session : Session}

theorem rooted (h : LaidOut c layout session) : session.scopes.Rooted :=
  (rooted_stage c layout).of_shape h.shape

theorem nested (h : LaidOut c layout session) (hw : c.WellFormed) :
    Nested c (session.homes, session.scopes) := by
  have hstage := nested_stage hw layout
  have hparent : ∀ n, session.scopes.parent n = (stage c layout).2.parent n := by
    intro n
    rw [Scopes.parent_eq_shape, h.shape, ← Scopes.parent_eq_shape]
  refine ⟨?_, ?_, ?_, ?_⟩
  · exact (hparent _).trans hstage.system
  · exact (hparent _).trans hstage.chart
  · intro s n hs
    rw [h.homes] at hs ⊢
    exact (hparent n).trans (hstage.state hs)
  · intro s n p hs hp
    rw [h.homes] at hs ⊢
    exact hstage.around hs hp

/-- No two places share a scope. -/
theorem home?_injective (h : LaidOut c layout session) {p q : Place} {n : Nat}
    (hp : session.home? p = some n) (hq : session.home? q = some n) : p = q := by
  have hstaged := staged_stage c layout
  have hhomes : ∀ {s}, session.homes.get? s = some n → (stage c layout).1.get? s = some n := by
    intro s hs
    rwa [h.homes] at hs
  have hne : ∀ {s}, session.homes.get? s = some n → n ≠ globalScope := by
    rintro s hs rfl
    exact absurd (hstaged.two_le (hhomes hs)) (by decide)
  cases p with
  | state s =>
    cases q with
    | state t => rw [hstaged.injective (hhomes hp) (hhomes hq)]
    | chart => exact absurd (Option.some.inj hq).symm (hne hp)
  | chart =>
    cases q with
    | state t => exact absurd (Option.some.inj hp).symm (hne hq)
    | chart => rfl

/-- The way outward from the scope of a state leads through the scopes of the states around it to
that of the chart and that of the system. -/
theorem chain_scopeOf (h : LaidOut c layout session) (hw : c.WellFormed) (s : Nat) :
    session.scopes.chain (session.scopeOf c s) =
      (c.placesAround s).filterMap session.home? ++ [systemScope] := by
  have hnested := h.nested hw
  have hglobal : session.scopes.chain globalScope = [globalScope, systemScope] := by
    have hlength : globalScope < session.scopes.frames.length := h.two_le_length
    rw [h.rooted.chain_of_parent hnested.system hlength hnested.chart]
    rfl
  have hstate : ∀ {s n}, session.homes.get? s = some n → session.scopes.chain n =
      n :: session.scopes.chain (((c.parent s).bind session.homes.get?).getD globalScope) := by
    intro s n hs
    refine h.rooted.chain_of_parent hnested.system ?_ (hnested.state hs)
    rw [h.length]
    rw [h.homes] at hs
    exact (staged_stage c layout).lt_length hs
  induction s using Nat.strong_induction_on with
  | _ s ih =>
    cases hparent : c.parent s with
    | none =>
      have hbranch : c.branch s = [s] := by
        rw [Chart.branch, Chart.WellFormed.ancestors_of_top hparent]
      cases hhome : session.homes.get? s with
      | none => simp [scopeOf, Chart.placesAround, home?, hbranch, hhome, hglobal]
      | some n =>
        have hchain := hstate hhome
        rw [hparent] at hchain
        simp [scopeOf, Chart.placesAround, home?, hbranch, hhome, hchain, hglobal]
    | some p =>
      have hbranch : c.branch s = s :: c.branch p := by
        rw [Chart.branch, hw.ancestors_of_parent hparent, Chart.branch]
      have hp := ih p (hw.parent_lt hparent)
      cases hhome : session.homes.get? s with
      | none =>
        simpa [scopeOf, Chart.placesAround, home?, hbranch, hhome] using hp
      | some n =>
        obtain ⟨k, hk⟩ := hnested.around hhome hparent
        have haround : ((c.parent s).bind session.homes.get?).getD globalScope =
            session.scopeOf c p := by
          simp [scopeOf, Chart.branch, hparent, hk]
        have hchain := hstate hhome
        rw [haround, hp] at hchain
        simpa [scopeOf, Chart.placesAround, home?, hbranch, hhome] using hchain

/-- A variable that is not one of the system is held where the nearest place declares it. -/
theorem holder?_scopeOf (h : LaidOut c layout session) (hw : c.WellFormed) {name : String}
    (hname : isSystemVariable name = false) (s : Nat) :
    session.scopes.holder? (session.scopeOf c s) name =
      (session.declarer? c name s).bind session.home? := by
  have hsystem : session.scopes.hasLocal systemScope name = false := by
    by_contra hlocal
    rw [Bool.not_eq_false] at hlocal
    exact h.ne_systemScope (.inr (.inr ⟨hname, hlocal⟩)) rfl
  have hnone : [systemScope].find? (fun n => session.scopes.hasLocal n name) = none := by
    simp [hsystem]
  rw [Scopes.holder?, h.chain_scopeOf hw, List.find?_append, List.find?_filterMap, hnone,
    Option.or_none]
  rfl

end LaidOut

end Session

end Statechart
