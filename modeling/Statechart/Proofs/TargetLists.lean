import Statechart.Proofs.Recording

/-!
Lists of targets in a chart. Where no default names a pseudo-state, every list leads to states
that can be active together, whatever histories remember, exactly if the defaults of the
histories can. The checks of a chart do not see to that: they ask of the default of a history
that it stays inside its state, and no more.
-/

namespace Statechart

/-- The start of a chart, or the targets of a transition, those of defaults included. -/
def Chart.TargetList (c : Chart) (targets : List Nat) : Prop :=
  targets = c.initial ∨ ∃ t, t < c.transitions.size ∧ targets = (c.transition t).targets

/-- Alone, `targets` lead to states without children, at least one, that break no rule. -/
def Chart.Enterable (c : Chart) (histories : Histories) (targets : List Nat) : Prop :=
  (∃ s, s ∈ (c.expand histories targets ∅).targets) ∧
    c.AllAtomic (c.expand histories targets ∅).targets ∧
    c.violations (c.expand histories targets ∅).targets = []

namespace Expansion

variable {c : Chart} {histories : Histories}

theorem union_empty (s : StateSet) : (∅ : StateSet).union s = s := by
  apply StateSet.ext
  intro x
  simp

theorem supported_of_ordinary {targets : List Nat} (h : ∀ x ∈ targets, c.Ordinary x) :
    Supported c targets targets .empty := by
  apply supported_start (fun x hx => .inl (h x hx))
  have hnone : targets.filter c.isPseudo = [] :=
    List.filter_eq_nil_iff.2 (fun x hx => by simp [(h x hx).2])
  rw [hnone]
  exact .nil

theorem supported_of_history {h : Nat} (hh : c.IsHistory h) : Supported c [h] [h] .empty := by
  refine supported_start ?_ ?_
  · intro x hx
    rw [List.mem_singleton.1 hx]
    exact .inr hh
  · exact (List.nodup_singleton h).sublist List.filter_sublist

theorem joined_of_pairwise {targets : List Nat} (h : targets.Pairwise c.Apart) :
    Joined c ∅ targets .empty where
  waiting := h
  settled ha := absurd ha (by simp [Expansion.empty])
  between _ hf := absurd hf (by simp [Expansion.empty])
  outside _ hr := absurd hr (StateSet.not_mem_empty _)

/-- Targets whose expansion meets both invariants can be entered. -/
theorem enterable_of_joined (hw : c.WellFormed) (hc : c.Checked) (hp : c.Plain)
    (hr : c.RecallsBelow histories) (hj : c.RecallsJoined histories) {targets : List Nat}
    (hne : targets ≠ []) (hsupported : Supported c targets targets .empty)
    (hapart : targets.Pairwise c.Apart) : c.Enterable histories targets := by
  have hempty : c.AllAtomic ∅ := fun s hs => absurd hs (StateSet.not_mem_empty s)
  obtain ⟨hdone, hmissing⟩ := supported_expand hw hc hp.direct hr ∅ hsupported
  have hjoined := joined_expand hw hc hp.direct hr hj hempty hsupported (joined_of_pairwise hapart)
  obtain ⟨hatomic, hlegal⟩ := legal_of_expand hw hempty hdone hjoined hmissing
  rw [union_empty] at hatomic hlegal
  exact ⟨targets_nonempty hdone hne, hatomic, (hw.violations_eq_nil_iff hatomic).2 hlegal⟩

/-- Targets that can be entered can be active together. -/
theorem joinable_of_enterable (hw : c.WellFormed) (hc : c.Checked) (hp : c.Plain)
    (hr : c.RecallsBelow histories) {targets : List Nat} (hordinary : ∀ x ∈ targets, c.Ordinary x)
    (h : c.Enterable histories targets) : targets.Pairwise c.Joinable := by
  obtain ⟨hdone, -⟩ :=
    supported_expand hw hc hp.direct hr ∅ (supported_of_ordinary hordinary)
  have hlegal := (hw.violations_eq_nil_iff h.2.1).1 h.2.2
  have hactive : ∀ x ∈ targets,
      x ∈ c.closure (c.expand histories targets ∅).targets.members := by
    intro x hx
    obtain ⟨f, hf, hfx⟩ := mem_closure_of_supported hdone
      ((hdone.kept x hx).resolve_right List.not_mem_nil) (hordinary x hx).2
    exact hw.mem_closure.2 ⟨f, hf, hfx⟩
  apply List.pairwise_of_forall_mem_list
  intro x hx y hy
  exact hw.joinable_of_legal hlegal (hactive x hx) (hactive y hy)

end Expansion

namespace Chart

variable {c : Chart}

theorem apart_of_pairwise {targets : List Nat} (hordinary : ∀ x ∈ targets, c.Ordinary x)
    (h : targets.Pairwise c.Joinable) : targets.Pairwise c.Apart := by
  apply h.imp_of_mem
  intro x y hx hy hxy
  exact apart_of_joinable (hordinary x hx).2 (hordinary y hy).2 hxy

theorem kind_of_isPseudo {s : Nat} (h : c.isPseudo s = true) :
    c.kind s = .initial ∨ c.IsHistory s := by
  unfold isPseudo at h
  cases hk : c.kind s with
  | initial => exact .inl rfl
  | history depth => exact .inr ⟨depth, hk⟩
  | _ =>
    rw [hk] at h
    cases h

/-- A list of targets is one history, or states that can be active together. -/
theorem targetList_cases (hw : c.WellFormed) (hc : c.Checked) (hp : c.Plain)
    (hd : c.DefaultsJoined) {targets : List Nat} (h : c.TargetList targets) :
    (∃ h, c.IsHistory h ∧ targets = [h]) ∨
      (∀ x ∈ targets, c.Ordinary x) ∧ targets.Pairwise c.Joinable := by
  rcases h with rfl | ⟨t, ht, rfl⟩
  · refine .inr ⟨fun x hx => ⟨hw.initial_lt hx, hp.start x hx⟩, ?_⟩
    exact hc.start.imp Orthogonal.joinable
  · have hmem := hw.mem_transitions.2 ⟨ht, rfl⟩
    cases hsource : c.isPseudo (c.transition t).source with
    | false =>
      rcases hp.targets t ht hsource with hordinary | ⟨hlength, hhistory⟩
      · refine .inr ⟨fun x hx => ⟨hw.targets_lt hx, hordinary x hx⟩, ?_⟩
        exact (hc.targets ht hsource).imp Orthogonal.joinable
      · obtain ⟨h, heq⟩ := List.length_eq_one_iff.1 hlength
        exact .inl ⟨h, hhistory h (by simp [heq]), heq⟩
    | true =>
      refine .inr ⟨fun x hx => Expansion.ordinary_of_targets hw hp hsource hmem hx, ?_⟩
      rcases kind_of_isPseudo hsource with hk | hh
      · obtain ⟨p, hparent⟩ := hw.pseudo_parent hsource
        exact (hc.entry hk hparent hmem).1.imp Orthogonal.joinable
      · exact hd _ _ hh hmem

/-- In a chart that is handed out and whose defaults name no pseudo-states, every list of targets
can be entered, whatever histories have recorded, exactly if the default of every history names
states that can be active together. -/
theorem enterable_iff_defaultsJoined {o : Outline} (h : o.build = .ok c) (hp : c.Plain) :
    (∀ targets, c.TargetList targets → targets ≠ [] → ∀ histories,
      Histories.Recorded c histories → c.Enterable histories targets) ↔ c.DefaultsJoined := by
  obtain ⟨hw, hc⟩ := Outline.wellFormed_of_build h
  constructor
  · intro hall x t hx ht
    -- Its own default is a list of targets, and nothing is remembered at first.
    have hr := (remembers_empty (c := c)).recallsBelow hw hc hp
    obtain ⟨hlt, -⟩ := hw.mem_transitions.1 ht
    refine Expansion.joinable_of_enterable hw hc hp hr ?_ ?_
    · exact fun y hy => Expansion.ordinary_of_targets hw hp hx.isPseudo ht hy
    · refine hall _ (.inr ⟨t, hlt, rfl⟩) ?_ ∅ .empty
      obtain ⟨t', ht', hne⟩ := hw.pseudo_transition hx.isPseudo
      rw [ht', List.mem_singleton] at ht
      rw [ht]
      exact hne
  · intro hd targets htargets hne histories hrecorded
    have hremembers := hrecorded.remembers hw
    have hr := hremembers.recallsBelow hw hc hp
    have hj := hremembers.recallsJoined hw hd
    rcases targetList_cases hw hc hp hd htargets with ⟨x, hx, rfl⟩ | ⟨hordinary, hjoin⟩
    · exact Expansion.enterable_of_joined hw hc hp hr hj hne (Expansion.supported_of_history hx)
        (List.pairwise_singleton _ _)
    · exact Expansion.enterable_of_joined hw hc hp hr hj hne
        (Expansion.supported_of_ordinary hordinary) (apart_of_pairwise hordinary hjoin)

theorem plain_player : Outline.player.chart.Plain where
  start := by decide +kernel
  defaults := by decide +kernel
  targets := by decide +kernel

theorem defaultsCompatible_player : Outline.player.chart.DefaultsCompatible := by
  unfold DefaultsCompatible
  decide +kernel

/-- When the player is turned on for the first time, its history can be entered. -/
theorem enterable_player : Outline.player.chart.Enterable ∅ [9] := by
  have hw := (Outline.wellFormed_of_build Outline.build_player).1
  refine (enterable_iff_defaultsJoined Outline.build_player plain_player).2
    (defaultsCompatible_player.joined hw) [9] ?_ (by simp) ∅ .empty
  exact .inr ⟨8, by decide +kernel, by decide +kernel⟩

end Chart

/-- A history that goes to both states of a compound state by default. -/
def Outline.torn : Outline where
  name := none
  datamodel := none
  initial := []
  states := [
    .mk (.named "A" .plain [] [.on "go" "H"]) [],
    .mk (.named "B" .plain [⟨some "H", .deep, some ⟨["B1", "B2"], []⟩⟩] []) [
      .mk (.named "B1" .plain [] []) [],
      .mk (.named "B2" .plain [] []) []]]
  data := []

theorem Outline.build_torn : Outline.torn.build = .ok Outline.torn.chart :=
  build_eq_ok rfl (by decide +kernel) (by decide +kernel)

namespace Chart

/-- Not every list of targets in a chart that is handed out can be entered. -/
theorem exists_not_enterable : ¬ ∀ (o : Outline) (c : Chart), o.build = .ok c →
    ∀ targets, c.TargetList targets → targets ≠ [] → ∀ histories,
      Histories.Recorded c histories → c.Enterable histories targets := by
  intro h
  have hlist : Outline.torn.chart.TargetList [2, 3] :=
    .inr ⟨2, by decide +kernel, by decide +kernel⟩
  have henter := h Outline.torn Outline.torn.chart Outline.build_torn [2, 3] hlist (by simp) ∅
    .empty
  exact absurd henter.2.2 (by decide +kernel)

end Chart

end Statechart
