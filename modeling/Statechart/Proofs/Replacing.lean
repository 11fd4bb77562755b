import Mathlib.Data.List.Induction
import Statechart.Proofs.Operations
import Statechart.Proofs.Snapshots

/-!
What a snapshot that cannot be loaded leaves behind. All checks come before anything is written,
but for one: that no active state is named twice is found out while the states are entered, when
the session has been cleared already.
-/

namespace Statechart

/-- Where a list names something twice, there is a first place that names something again. -/
theorem exists_first_repeated {xs : List Nat} (h : ¬ xs.Nodup) :
    ∃ before s after, xs = before ++ s :: after ∧ before.Nodup ∧ s ∈ before := by
  induction xs using List.reverseRecOn with
  | nil => exact absurd List.nodup_nil h
  | append_singleton xs last ih =>
    by_cases hnodup : xs.Nodup
    · refine ⟨xs, last, [], rfl, hnodup, ?_⟩
      by_contra hlast
      refine h (List.nodup_append.2 ⟨hnodup, List.nodup_singleton last, ?_⟩)
      rintro s hs t ht rfl
      exact hlast (List.mem_singleton.1 ht ▸ hs)
    · obtain ⟨before, s, after, rfl, hbefore, hs⟩ := ih hnodup
      exact ⟨before, s, after ++ [last], by simp, hbefore, hs⟩

namespace Configuration

variable {change : Configuration → Nat → Except ConfigurationError Configuration}

theorem changeAll_append {conf conf' : Configuration} {first : List Nat} (second : List Nat)
    (h : changeAll change conf first = (none, conf')) :
    changeAll change conf (first ++ second) = changeAll change conf' second := by
  induction first generalizing conf with
  | nil =>
    obtain rfl : conf = conf' := congrArg Prod.snd h
    rfl
  | cons s rest ih =>
    obtain ⟨next, hnext, hrest⟩ := changeAll_cons h
    rw [List.cons_append, changeAll, hnext]
    exact ih hrest

end Configuration

namespace Chart

/-- Of states to enter that name one twice, those before the second naming are entered. -/
theorem changeAll_enter_repeated (c : Chart) {entries : List Nat} (hrepeated : ¬ entries.Nodup)
    (hpseudo : ∀ x ∈ entries, c.isPseudo x = false) :
    ∃ before s after, entries = before ++ s :: after ∧ before.Nodup ∧ s ∈ before ∧
      Configuration.changeAll (fun conf s => conf.enter c s) .empty entries =
        (some (.alreadyActive (c.idOf s)), ⟨.ofList before⟩) := by
  obtain ⟨before, s, after, rfl, hnodup, hs⟩ := exists_first_repeated hrepeated
  refine ⟨before, s, after, rfl, hnodup, hs, ?_⟩
  obtain ⟨conf, hconf⟩ := changeAll_enter c .empty hnodup
    (fun x hx => ⟨hpseudo x (List.mem_append_left _ hx), StateSet.not_mem_empty x⟩)
  have hactive : conf.active = .ofList before := by
    apply StateSet.ext
    intro x
    rw [Configuration.mem_changeAll_enter hconf, StateSet.mem_ofList]
    exact or_iff_right (StateSet.not_mem_empty x)
  have henter : conf.enter c s = .error (.alreadyActive (c.idOf s)) := by
    have hmem : s ∈ conf.active := by rwa [hactive, StateSet.mem_ofList]
    simp [Configuration.enter, hpseudo s (by simp), hmem]
  rw [Configuration.changeAll_append _ hconf, Configuration.changeAll, henter, ← hactive]

end Chart

namespace Snapshot

variable {c : Chart}

theorem lookup_of_resolve {id : String} {s : Nat} (h : resolve c id = .ok s) :
    c.lookup id = some s := by
  unfold resolve at h
  split at h
  · next t ht =>
    obtain rfl := Except.ok.inj h
    exact ht
  · cases h

theorem map_lookup_of_resolveAll {ids : List String} {xs : List Nat}
    (h : resolveAll c ids = .ok xs) : ids.map c.lookup = xs.map some := by
  unfold resolveAll at h
  induction ids generalizing xs with
  | nil =>
    obtain rfl := Except.ok.inj h
    rfl
  | cons id rest ih =>
    rw [List.mapM_cons] at h
    obtain ⟨s, hs, h⟩ := exists_of_bind h
    obtain ⟨others, hothers, h⟩ := exists_of_bind h
    obtain rfl := Except.ok.inj h
    exact congrArg₂ List.cons (lookup_of_resolve hs) (ih hothers)

/-- Ids are looked up under different numbers exactly if they are different. -/
theorem nodup_of_resolveAll {ids : List String} {xs : List Nat}
    (h : resolveAll c ids = .ok xs) : xs.Nodup ↔ ids.Nodup := by
  have hlookup := map_lookup_of_resolveAll h
  constructor
  · intro hxs
    have hnumbers := hxs.map (Option.some_injective Nat)
    rw [← hlookup] at hnumbers
    exact hnumbers.of_map
  · intro hids
    have hback : (xs.map some).map (Option.map c.idOf) = ids.map some := by
      rw [← hlookup, List.map_map]
      refine List.map_congr_left ?_
      intro id hid
      obtain ⟨s, -, hs⟩ : ∃ s ∈ xs, some s = c.lookup id := by
        rw [← List.mem_map, ← hlookup]
        exact List.mem_map_of_mem hid
      simp [← hs, Chart.idOf_of_lookup hs.symm]
    have hnumbers := hids.map (Option.some_injective String)
    rw [← hback] at hnumbers
    exact hnumbers.of_map.of_map

theorem not_pseudo_of_checkActive {active : List Nat} (h : checkActive c active = .ok ()) :
    ∀ s ∈ active, c.isPseudo s = false := by
  unfold checkActive at h
  split at h
  · cases h
  · next hnone => simpa using List.find?_eq_none.1 hnone

/-- The states to enter are those that are named, as often as they are named. -/
theorem active_resolved {snap : Snapshot} {r : Resolved} (h : snap.resolved c = .ok r) :
    (r.active.Nodup ↔ snap.active.Nodup) ∧ ∀ s ∈ r.active, c.isPseudo s = false := by
  obtain ⟨active, hactive, hcheck, horder⟩ := (resolved_eq_ok_iff.1 h).active
  rw [horder]
  constructor
  · rw [← nodup_of_resolveAll hactive]
    exact (Chart.sortBy_perm _ _).nodup_iff
  · intro s hs
    exact not_pseudo_of_checkActive hcheck s (Chart.mem_entryOrder.1 hs)

/-- A snapshot that fails its checks is not loaded at all. -/
theorem restoreInto_of_not_resolved {snap : Snapshot} {e : SnapshotError}
    (h : snap.resolved c = .error e) (shared : Bool) (session : Session) :
    snap.restoreInto c shared session = (some e, session) := by
  rw [restoreInto, h]

/-- A snapshot that passes its checks and names no active state twice is loaded. -/
theorem restoreInto_of_nodup {snap : Snapshot} {r : Resolved} (h : snap.resolved c = .ok r)
    (hnodup : snap.active.Nodup) (shared : Bool) (session : Session) :
    ∃ conf, snap.restoreInto c shared session =
      (none, snap.load r c (cleared c shared r.sessionId conf)) := by
  obtain ⟨hactive, hpseudo⟩ := active_resolved h
  obtain ⟨conf, hconf⟩ := Chart.changeAll_enter c .empty (hactive.2 hnodup)
    (fun s hs => ⟨hpseudo s hs, StateSet.not_mem_empty s⟩)
  refine ⟨conf, ?_⟩
  have hfresh : (Session.fresh c shared r.sessionId).configuration = .empty := rfl
  rw [restoreInto, h]
  simp only [hfresh, hconf]
  rfl

/-- A snapshot that names no active state twice is loaded, or leaves the session as it is. Of one
that names a state twice and passes its checks, the states before the second naming are entered
in a session that has been cleared. -/
theorem unchanged_of_restoreInto_fails (snap : Snapshot) (c : Chart) (shared : Bool)
    (session : Session) :
    (snap.active.Nodup → ∀ e, (snap.restoreInto c shared session).1 = some e →
      (snap.restoreInto c shared session).2 = session) ∧
    (¬ snap.active.Nodup → ∀ r, snap.resolved c = .ok r → ∃ before s after,
      r.active = before ++ s :: after ∧ s ∈ before ∧
      snap.restoreInto c shared session =
        (some (.configuration (.alreadyActive (c.idOf s))),
          cleared c shared r.sessionId ⟨.ofList before⟩)) := by
  constructor
  · intro hnodup e he
    cases hresolved : snap.resolved c with
    | error e => rw [restoreInto_of_not_resolved hresolved]
    | ok r =>
      obtain ⟨conf, hload⟩ := restoreInto_of_nodup hresolved hnodup shared session
      rw [hload] at he
      cases he
  · intro hrepeated r hresolved
    obtain ⟨hactive, hpseudo⟩ := active_resolved hresolved
    obtain ⟨before, s, after, hsplit, -, hs, hchange⟩ :=
      c.changeAll_enter_repeated (fun h => hrepeated (hactive.1 h)) hpseudo
    refine ⟨before, s, after, hsplit, hs, ?_⟩
    have hfresh : (Session.fresh c shared r.sessionId).configuration = .empty := rfl
    rw [restoreInto, hresolved]
    simp only [hfresh, hchange]
    rfl

end Snapshot

/-- One state. -/
def Outline.lamp : Outline where
  name := none
  datamodel := none
  initial := []
  states := [.mk (StateHead.named "lit" .plain [] []) []]
  data := []

theorem Outline.build_lamp : Outline.lamp.build = .ok Outline.lamp.chart :=
  build_eq_ok rfl (by decide +kernel) (by decide +kernel)

namespace Snapshot

/-- A snapshot that names its only active state twice. -/
def doubled : Snapshot where
  version := currentVersion
  stamp := ⟨"doubled", ⟨19000, 0, 0⟩⟩
  chart := none
  sessionId := Interpreter.secondId.render
  running := true
  active := ["lit", "lit"]
  histories := ∅
  completed := []
  invokes := ∅
  pendingInvokes := []
  global := ∅
  contexts := ∅
  internalEvents := []
  sequence := 0

/-- The session takes over the id of a snapshot that it cannot load. -/
theorem exists_half_restored : ¬ ∀ (o : Outline) (c : Chart), o.build = .ok c →
    ∀ (snap : Snapshot) (shared : Bool) (session : Session) (e : SnapshotError),
      (snap.restoreInto c shared session).1 = some e →
      (snap.restoreInto c shared session).2 = session := by
  intro h
  have hsame := h .lamp Outline.lamp.chart Outline.build_lamp doubled false
    (Session.fresh Outline.lamp.chart false ⟨List.replicate 32 1, rfl⟩)
    (.configuration (.alreadyActive "lit")) (by decide +kernel)
  exact absurd (congrArg Session.id hsame) (by decide +kernel)

end Snapshot

end Statechart
