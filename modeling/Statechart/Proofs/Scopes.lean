import Statechart.Proofs.Collections
import Statechart.Session.Basic

/-!
The scopes of a session. A new session has the scope of the system and that of the chart. One that
is laid out has besides one for every state that has one, numbered in document order; afterwards
only the variables in them change.
-/

namespace Statechart

namespace Scopes

/-- The parents of the scopes, in the order of their numbers. -/
def shape (scopes : Scopes) : List (Option Nat) :=
  scopes.frames.map Frame.parent

variable {scopes : Scopes}

theorem length_shape (scopes : Scopes) : scopes.shape.length = scopes.frames.length := by
  simp [shape]

theorem vars_of_le {n : Nat} (h : scopes.frames.length ≤ n) : scopes.vars n = ∅ := by
  simp [vars, frame?, List.getElem?_eq_none h]

/-- Scopes are told apart by their parents and by their variables. -/
theorem ext_vars {s t : Scopes} (hshape : s.shape = t.shape) (hvars : ∀ n, s.vars n = t.vars n) :
    s = t := by
  obtain ⟨frames⟩ := s
  obtain ⟨frames'⟩ := t
  have hlength : frames.length = frames'.length := by
    have h := congrArg List.length hshape
    simpa [shape] using h
  congr 1
  apply List.ext_getElem hlength
  intro n hn hn'
  have hparent : frames[n].parent = frames'[n].parent := by
    have h : (frames.map Frame.parent)[n]? = (frames'.map Frame.parent)[n]? :=
      congrArg (fun xs : List (Option Nat) => xs[n]?) hshape
    simpa [hn, hn'] using h
  have hlocal : frames[n].vars = frames'[n].vars := by
    have h := hvars n
    simpa [vars, frame?, hn, hn'] using h
  cases hf : frames[n]
  cases hf' : frames'[n]
  rw [hf, hf'] at hparent hlocal
  simp_all

@[simp] theorem shape_modifyVars (n : Nat) (f : Vars → Vars) :
    (scopes.modifyVars n f).shape = scopes.shape := by
  apply List.ext_getElem
  · simp [shape, modifyVars]
  · intro k hk hk'
    simp only [shape, modifyVars, List.getElem_map, List.getElem_modify]
    split <;> rfl

@[simp] theorem length_modifyVars (n : Nat) (f : Vars → Vars) :
    (scopes.modifyVars n f).frames.length = scopes.frames.length := by
  simp [modifyVars]

theorem vars_modifyVars {n : Nat} (hn : n < scopes.frames.length) (f : Vars → Vars) (k : Nat) :
    (scopes.modifyVars n f).vars k = if k = n then f (scopes.vars k) else scopes.vars k := by
  simp only [vars, frame?, modifyVars, List.getElem?_modify]
  split
  · next h =>
    subst h
    simp [hn]
  · next h =>
    rw [if_neg (fun h' => h h'.symm)]
    simp

theorem vars_modifyVars_of_ne {n k : Nat} (hk : k ≠ n) (f : Vars → Vars) :
    (scopes.modifyVars n f).vars k = scopes.vars k := by
  simp [vars, frame?, modifyVars, Ne.symm hk]

@[simp] theorem shape_setLocal (n : Nat) (name : String) (value : Json.Value) :
    (scopes.setLocal n name value).shape = scopes.shape := shape_modifyVars n _

@[simp] theorem length_setLocal (n : Nat) (name : String) (value : Json.Value) :
    (scopes.setLocal n name value).frames.length = scopes.frames.length := length_modifyVars n _

theorem vars_setLocal {n : Nat} (hn : n < scopes.frames.length) (name : String)
    (value : Json.Value) (k : Nat) :
    (scopes.setLocal n name value).vars k =
      if k = n then (scopes.vars k).insert name value else scopes.vars k :=
  vars_modifyVars hn _ k

/-- A change of one scope that leaves the variable `name` as it is. -/
theorem get?_vars_modifyVars {f : Vars → Vars} {name : String}
    (hf : ∀ vars, (f vars).get? name = vars.get? name) (n k : Nat) :
    ((scopes.modifyVars n f).vars k).get? name = (scopes.vars k).get? name := by
  by_cases hk : k = n
  · subst hk
    rcases Nat.lt_or_ge k scopes.frames.length with hlt | hle
    · rw [vars_modifyVars hlt, if_pos rfl, hf]
    · rw [vars_of_le hle, vars_of_le (by simpa using hle)]
  · rw [vars_modifyVars_of_ne hk]

theorem vars_create (parent : Option Nat) (n : Nat) :
    (scopes.create parent).2.vars n = scopes.vars n := by
  simp only [create, vars, frame?]
  rcases Nat.lt_trichotomy n scopes.frames.length with h | h | h
  · rw [List.getElem?_append_left h]
  · subst h
    simp
  · rw [List.getElem?_eq_none (by simp; omega), List.getElem?_eq_none (Nat.le_of_lt h)]

@[simp] theorem length_create (parent : Option Nat) :
    (scopes.create parent).2.frames.length = scopes.frames.length + 1 := by
  simp [create]

end Scopes

namespace Session

/-- The states laid out get the next numbers, in order; no variable is touched. -/
theorem layOut_spec (c : Chart) (states : List Nat) (laid : SortedMap Nat Nat × Scopes)
    (hnodup : states.Nodup) :
    (∀ n, (layOut c states laid).2.vars n = laid.2.vars n) ∧
      (layOut c states laid).2.frames.length = laid.2.frames.length + states.length ∧
      (∀ s, s ∉ states → (layOut c states laid).1.get? s = laid.1.get? s) ∧
      ∀ i (h : i < states.length),
        (layOut c states laid).1.get? states[i] = some (laid.2.frames.length + i) := by
  induction states generalizing laid with
  | nil => simp [layOut]
  | cons s rest ih =>
    rw [List.nodup_cons] at hnodup
    obtain ⟨hvars, hlength, hkept, hnew⟩ := ih
      (laid.1.insert s (laid.2.create (some (((c.parent s).bind laid.1.get?).getD globalScope))).1,
        (laid.2.create (some (((c.parent s).bind laid.1.get?).getD globalScope))).2) hnodup.2
    refine ⟨?_, ?_, ?_, ?_⟩
    · intro n
      exact (hvars n).trans (Scopes.vars_create _ n)
    · apply hlength.trans
      rw [Scopes.length_create, List.length_cons]
      omega
    · intro x hx
      rw [List.mem_cons, not_or] at hx
      apply (hkept x hx.2).trans
      rw [SortedMap.get?_insert, if_neg hx.1]
    · intro i hi
      cases i with
      | zero =>
        apply (hkept s hnodup.1).trans
        rw [SortedMap.get?_insert, if_pos rfl]
        rfl
      | succ i =>
        apply (hnew i (Nat.lt_of_succ_lt_succ hi)).trans
        rw [Scopes.length_create]
        congr 1
        omega

/-- The scopes of a session and where the states have theirs, before any variable is set. In a new
session, for which no layout has been chosen, states have no scopes of their own. -/
def stage (c : Chart) : (layout : Option Bool) → SortedMap Nat Nat × Scopes
  | none => (∅, ground)
  | some shared =>
    if shared then (∅, ground) else layOut c (c.states.filter (fun s => !c.isPseudo s)) (∅, ground)

/-- What the system scope holds at first: nothing in a new session, and the variables of the system
in one that is laid out. -/
def systemVars (c : Chart) (id : SessionId) : (layout : Option Bool) → Vars
  | none => ∅
  | some _ => (((∅ : Vars).insert SystemVariable.sessionId (.text id.render)).insert
      SystemVariable.name (.ofText? c.name)).insert SystemVariable.allStates (.list [])

/-- Content may write no variable of the system. -/
theorem get?_systemVars {name : String} (h : isSystemVariable name = false) (c : Chart)
    (id : SessionId) (layout : Option Bool) : (systemVars c id layout).get? name = none := by
  simp only [isSystemVariable, Bool.or_eq_false_iff, beq_eq_false_iff_ne] at h
  obtain ⟨⟨⟨hid, hchart⟩, -⟩, hall⟩ := h
  cases layout with
  | none => rfl
  | some shared =>
    rw [systemVars, SortedMap.get?_insert, if_neg hall, SortedMap.get?_insert, if_neg hchart,
      SortedMap.get?_insert, if_neg hid]
    rfl

theorem homes_fresh (c : Chart) (shared : Bool) (id : SessionId) :
    (fresh c shared id).homes = (stage c shared).1 := rfl

theorem scopes_fresh (c : Chart) (shared : Bool) (id : SessionId) :
    (fresh c shared id).scopes =
      (((stage c shared).2.setLocal systemScope SystemVariable.sessionId (.text id.render)).setLocal
        systemScope SystemVariable.name (.ofText? c.name)).setLocal
        systemScope SystemVariable.allStates (.list []) := rfl

theorem vars_ground (n : Nat) : ground.vars n = ∅ := by
  rw [ground, Scopes.vars_create, Scopes.vars_create]
  exact Scopes.vars_of_le (Nat.zero_le n)

/-- Where the states have their scopes: each its own, none that of the system or the chart. -/
structure Staged (c : Chart) (staged : SortedMap Nat Nat × Scopes) : Prop where
  vars : ∀ n, staged.2.vars n = ∅
  two_le_length : 2 ≤ staged.2.frames.length
  lt_size : ∀ {s n}, staged.1.get? s = some n → s < c.nodes.size
  two_le : ∀ {s n}, staged.1.get? s = some n → 2 ≤ n
  lt_length : ∀ {s n}, staged.1.get? s = some n → n < staged.2.frames.length
  injective : ∀ {s t n}, staged.1.get? s = some n → staged.1.get? t = some n → s = t
  surjective : ∀ {n}, 2 ≤ n → n < staged.2.frames.length → ∃ s, staged.1.get? s = some n

/-- Every home is that of the state at some place of the list. -/
theorem home_layOut {c : Chart} {states : List Nat} (hnodup : states.Nodup) {s n : Nat}
    (h : (layOut c states (∅, ground)).1.get? s = some n) :
    ∃ (i : Nat) (h : i < states.length), states[i] = s ∧ n = 2 + i := by
  obtain ⟨-, -, hkept, hnew⟩ := layOut_spec c states (∅, ground) hnodup
  by_cases hs : s ∈ states
  · obtain ⟨i, hi, rfl⟩ := List.getElem_of_mem hs
    refine ⟨i, hi, rfl, ?_⟩
    have hn := (hnew i hi).symm.trans h
    exact (Option.some.inj hn).symm
  · rw [hkept s hs] at h
    cases h

theorem length_layOut (c : Chart) {states : List Nat} (hnodup : states.Nodup) :
    (layOut c states (∅, ground)).2.frames.length = 2 + states.length :=
  (layOut_spec c states (∅, ground) hnodup).2.1

theorem staged_layOut {c : Chart} {states : List Nat} (hnodup : states.Nodup)
    (hstates : ∀ s ∈ states, s < c.nodes.size) : Staged c (layOut c states (∅, ground)) where
  vars n := ((layOut_spec c states (∅, ground) hnodup).1 n).trans (vars_ground n)
  two_le_length := by
    rw [length_layOut c hnodup]
    exact Nat.le_add_right 2 _
  lt_size := by
    intro s n h
    obtain ⟨i, hi, rfl, -⟩ := home_layOut hnodup h
    exact hstates _ (List.getElem_mem hi)
  two_le := by
    intro s n h
    obtain ⟨i, -, -, rfl⟩ := home_layOut hnodup h
    exact Nat.le_add_right 2 i
  lt_length := by
    intro s n h
    obtain ⟨i, hi, -, rfl⟩ := home_layOut hnodup h
    rw [length_layOut c hnodup]
    exact Nat.add_lt_add_left hi 2
  injective := by
    intro s t n hs ht
    obtain ⟨i, hi, rfl, hn⟩ := home_layOut hnodup hs
    obtain ⟨j, hj, rfl, hn'⟩ := home_layOut hnodup ht
    obtain rfl : i = j := by omega
    rfl
  surjective := by
    intro n h2 hn
    rw [length_layOut c hnodup] at hn
    obtain ⟨i, rfl⟩ := Nat.exists_eq_add_of_le h2
    have hi : i < states.length := Nat.lt_of_add_lt_add_left hn
    exact ⟨states[i], (layOut_spec c states (∅, ground) hnodup).2.2.2 i hi⟩

/-- No event is bound at first. -/
theorem get?_systemVars_event (c : Chart) (id : SessionId) (layout : Option Bool) :
    (systemVars c id layout).get? SystemVariable.event = none := by
  cases layout with
  | none => rfl
  | some shared =>
    rw [systemVars, SortedMap.get?_insert, if_neg (by decide), SortedMap.get?_insert,
      if_neg (by decide), SortedMap.get?_insert, if_neg (by decide)]
    rfl

theorem staged_stage (c : Chart) (layout : Option Bool) : Staged c (stage c layout) := by
  match layout with
  | none | some true => exact staged_layOut .nil (fun s hs => nomatch hs)
  | some false =>
    apply staged_layOut (List.nodup_range.filter _)
    intro s hs
    exact List.mem_range.1 (List.mem_filter.1 hs).1

theorem shape_fresh (c : Chart) (shared : Bool) (id : SessionId) :
    (fresh c shared id).scopes.shape = (stage c shared).2.shape := by
  simp [scopes_fresh]

/-- Only the system scope of a fresh session holds variables. -/
theorem vars_fresh (c : Chart) (shared : Bool) (id : SessionId) (n : Nat) :
    (fresh c shared id).scopes.vars n =
      if n = systemScope then systemVars c id shared else ∅ := by
  have hstaged := staged_stage c shared
  have hsystem : systemScope < (stage c shared).2.frames.length :=
    Nat.lt_of_lt_of_le (by decide) hstaged.two_le_length
  rw [scopes_fresh, Scopes.vars_setLocal (by simpa using hsystem),
    Scopes.vars_setLocal (by simpa using hsystem), Scopes.vars_setLocal hsystem, hstaged.vars]
  split <;> rfl

/-- The scopes are laid out in one of the ways there are, and the system scope holds the same as
at first but for the variables that change. -/
structure LaidOut (c : Chart) (layout : Option Bool) (session : Session) : Prop where
  homes : session.homes = (stage c layout).1
  shape : session.scopes.shape = (stage c layout).2.shape
  system : ∀ name, name ≠ SystemVariable.event → name ≠ SystemVariable.allStates →
    (session.scopes.vars systemScope).get? name = (systemVars c session.id layout).get? name

theorem laidOut_new (c : Chart) (id : SessionId) : LaidOut c none (new id) :=
  ⟨rfl, rfl, fun _ _ _ => congrArg (fun vars : Vars => vars.get? _) (vars_ground systemScope)⟩

theorem laidOut_fresh (c : Chart) (shared : Bool) (id : SessionId) :
    LaidOut c shared (fresh c shared id) where
  homes := homes_fresh c shared id
  shape := shape_fresh c shared id
  system name _ _ := by
    rw [vars_fresh, if_pos rfl]
    rfl

namespace LaidOut

variable {c : Chart} {layout : Option Bool} {session : Session}

theorem length (h : LaidOut c layout session) :
    session.scopes.frames.length = (stage c layout).2.frames.length := by
  rw [← Scopes.length_shape, h.shape, Scopes.length_shape]

theorem two_le_length (h : LaidOut c layout session) : 2 ≤ session.scopes.frames.length := by
  rw [h.length]
  exact (staged_stage c layout).two_le_length

theorem system_lt_length (h : LaidOut c layout session) :
    systemScope < session.scopes.frames.length :=
  Nat.lt_of_lt_of_le (by decide) h.two_le_length

/-- Where variables may be written is outside the system scope. -/
theorem ne_systemScope (h : LaidOut c layout session) {n : Nat} {name : String}
    (hn : n = globalScope ∨ (∃ s, session.homes.get? s = some n) ∨
      isSystemVariable name = false ∧ session.scopes.hasLocal n name = true) :
    n ≠ systemScope := by
  rintro rfl
  rcases hn with hn | ⟨s, hs⟩ | ⟨hname, hlocal⟩
  · cases hn
  · rw [h.homes] at hs
    exact absurd ((staged_stage c layout).two_le hs) (by decide)
  · have hreserved : name ≠ SystemVariable.event ∧ name ≠ SystemVariable.allStates := by
      simp only [isSystemVariable, Bool.or_eq_false_iff, beq_eq_false_iff_ne] at hname
      exact ⟨hname.1.2, hname.2⟩
    rw [Scopes.hasLocal, SortedMap.contains, h.system name hreserved.1 hreserved.2,
      get?_systemVars hname] at hlocal
    cases hlocal

end LaidOut

end Session

namespace Scopes

/-- Every scope but the first has a parent with a smaller number. -/
def Rooted (scopes : Scopes) : Prop :=
  ∀ n, n < scopes.frames.length → n ≠ 0 → ∃ p, p < n ∧ scopes.parent n = some p

variable {scopes : Scopes}

theorem parent_eq_shape (scopes : Scopes) (n : Nat) :
    scopes.parent n = scopes.shape[n]?.bind id := by
  simp [parent, frame?, shape, Option.bind_map]

theorem Rooted.of_shape {s t : Scopes} (h : s.Rooted) (hshape : t.shape = s.shape) : t.Rooted := by
  intro n hn hne
  rw [← length_shape, hshape, length_shape] at hn
  obtain ⟨p, hp, hparent⟩ := h n hn hne
  exact ⟨p, hp, by rw [parent_eq_shape, hshape, ← parent_eq_shape, hparent]⟩

theorem parent_create (parent : Option Nat) (n : Nat) :
    (scopes.create parent).2.parent n =
      if n = scopes.frames.length then parent.filter (· < scopes.frames.length)
      else scopes.parent n := by
  simp only [create, Scopes.parent, frame?]
  rcases Nat.lt_trichotomy n scopes.frames.length with h | h | h
  · rw [List.getElem?_append_left h, if_neg (Nat.ne_of_lt h)]
  · subst h
    simp
  · rw [List.getElem?_eq_none (by simp; omega), List.getElem?_eq_none (Nat.le_of_lt h),
      if_neg (Nat.ne_of_gt h)]

theorem Rooted.create (h : scopes.Rooted) {p : Nat} (hp : p < scopes.frames.length) :
    (scopes.create (some p)).2.Rooted := by
  intro n hn hne
  rw [length_create] at hn
  rw [parent_create]
  split
  · next hlast => exact ⟨p, by omega, by simp [Option.filter, hp]⟩
  · next hold => exact h n (by omega) hne

/-- The first scope is found on the way outward from any other. -/
theorem Rooted.zero_mem_chain (h : scopes.Rooted) {n : Nat} (hn : n < scopes.frames.length) :
    0 ∈ scopes.chain n := by
  suffices hwalk : ∀ steps n, n ≤ steps → n < scopes.frames.length → 0 ∈ scopes.walk steps n from
    hwalk n n (Nat.le_refl n) hn
  intro steps
  induction steps with
  | zero =>
    intro n hle _
    obtain rfl := Nat.le_zero.1 hle
    simp [walk]
  | succ steps ih =>
    intro n hle hn
    rw [walk]
    by_cases hzero : n = 0
    · simp [hzero]
    · obtain ⟨p, hp, hparent⟩ := h n hn hzero
      rw [hparent]
      exact List.mem_cons_of_mem n (ih p (by omega) (by omega))

/-- A variable that only the first scope declares is read there from everywhere. -/
theorem Rooted.get?_eq (h : scopes.Rooted) {n : Nat} (hn : n < scopes.frames.length)
    {name : String} (honly : ∀ k, k ≠ 0 → (scopes.vars k).get? name = none) :
    scopes.get? n name = (scopes.vars 0).get? name := by
  have hfirst : ∀ ks : List Nat, 0 ∈ ks →
      ks.findSome? (fun k => (scopes.vars k).get? name) = (scopes.vars 0).get? name := by
    intro ks
    induction ks with
    | nil => simp
    | cons k rest ih =>
      intro hmem
      rw [List.findSome?_cons]
      by_cases hk : k = 0
      · subst hk
        cases hvalue : (scopes.vars 0).get? name with
        | some value => rfl
        | none =>
          -- No scope has the variable.
          refine List.findSome?_eq_none_iff.2 fun k _ => ?_
          by_cases hk : k = 0
          · rw [hk, hvalue]
          · exact honly k hk
      · rw [honly k hk]
        exact ih ((List.mem_cons.1 hmem).resolve_left (Ne.symm hk))
  exact hfirst _ (h.zero_mem_chain hn)

end Scopes

namespace Session

theorem rooted_ground : ground.Rooted := by
  intro n hn hne
  have hlength : ground.frames.length = 2 := rfl
  obtain rfl : n = 1 := by omega
  exact ⟨0, by omega, rfl⟩

theorem rooted_layOut (c : Chart) (states : List Nat) {laid : SortedMap Nat Nat × Scopes}
    (hrooted : laid.2.Rooted) (hlength : globalScope < laid.2.frames.length)
    (hhomes : ∀ {s n}, laid.1.get? s = some n → n < laid.2.frames.length) :
    (layOut c states laid).2.Rooted := by
  induction states generalizing laid with
  | nil => exact hrooted
  | cons s rest ih =>
    have haround : ((c.parent s).bind laid.1.get?).getD globalScope < laid.2.frames.length := by
      cases hhome : (c.parent s).bind laid.1.get? with
      | none => exact hlength
      | some n =>
        obtain ⟨p, -, hp⟩ := Option.bind_eq_some_iff.1 hhome
        exact hhomes hp
    refine ih (hrooted.create haround) ?_ ?_
    · rw [Scopes.length_create]
      exact Nat.lt_succ_of_lt hlength
    · intro x n hx
      rw [Scopes.length_create]
      rw [SortedMap.get?_insert] at hx
      split at hx
      · cases hx
        exact Nat.lt_succ_self _
      · exact Nat.lt_succ_of_lt (hhomes hx)

theorem rooted_stage (c : Chart) (layout : Option Bool) : (stage c layout).2.Rooted := by
  match layout with
  | none | some true => exact rooted_ground
  | some false => exact rooted_layOut c _ rooted_ground (by decide) (fun h => nomatch h)

end Session

end Statechart
