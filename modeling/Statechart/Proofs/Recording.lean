import Statechart.Proofs.Expansion

/-!
What histories remember. A history records a part of what is active inside its state, and what
is active is legal; so what it leads to lies inside its state, and can be active together if its
default can.
-/

namespace Statechart

/-- Every history remembers states inside its own state that can be active together. -/
def Chart.Remembers (c : Chart) (histories : Histories) : Prop :=
  ∀ h p states, c.IsHistory h → c.parent h = some p → histories.get? h = some states →
    (∀ x ∈ states, c.Ordinary x ∧ c.Below x p) ∧ ∀ x ∈ states, ∀ y ∈ states, c.Joinable x y

/-- The stores that come about by recording legal configurations. -/
inductive Histories.Recorded (c : Chart) : Histories → Prop where
  | empty : Histories.Recorded c ∅
  | exit {histories : Histories} (h : Histories.Recorded c histories) {conf : Configuration}
      (hl : c.Legal conf.active) (s pending : Nat) :
    Histories.Recorded c (histories.recordExit c s (Status.capture c conf pending))

/-- The defaults of histories pass the check that is made of other lists of targets. -/
def Chart.DefaultsCompatible (c : Chart) : Prop :=
  ∀ h < c.nodes.size, c.IsHistory h → ∀ t ∈ (c.node h).transitions,
    c.areCompatible (c.transition t).targets = true

/-- The defaults of histories can be active together. -/
def Chart.DefaultsJoined (c : Chart) : Prop :=
  ∀ h t, c.IsHistory h → t ∈ (c.node h).transitions →
    (c.transition t).targets.Pairwise c.Joinable

variable {c : Chart}

theorem Configuration.allAtomic {conf : Configuration}
    (hl : c.Legal conf.active) : c.AllAtomic (conf.atomic c) := by
  intro s hs
  obtain ⟨hs, hatomic⟩ := StateSet.mem_filter.1 hs
  exact ⟨hatomic, (hl.ordinary hs).1⟩

theorem Status.all_capture (hw : c.WellFormed) {conf : Configuration} (hl : c.Legal conf.active)
    (pending : Nat) : (Status.capture c conf pending).all = conf.active :=
  hw.closure_of_legal hl

theorem remembered_subset (s : Nat) (depth : HistoryDepth) {before : Status} {active : StateSet}
    (hstates : ∀ x ∈ before.states, x ∈ active) (hall : ∀ x ∈ before.all, x ∈ active) :
    ∀ x ∈ Histories.remembered c s depth before, x ∈ active := by
  intro x hx
  cases depth with
  | deep => exact hstates x (StateSet.mem_filter.1 hx).1
  | shallow =>
    simp only [Histories.remembered, StateSet.mem_ofList, List.mem_filter, decide_eq_true_eq] at hx
    exact hall x hx.2

theorem below_of_remembered (hw : c.WellFormed) {s x : Nat} {depth : HistoryDepth}
    {before : Status} (hx : x ∈ Histories.remembered c s depth before) : c.Below x s := by
  cases depth with
  | deep => exact Chart.isDescendant_iff.1 (StateSet.mem_filter.1 hx).2
  | shallow =>
    simp only [Histories.remembered, StateSet.mem_ofList, List.mem_filter] at hx
    exact hw.below_parent (hw.mem_children.1 hx.1).1

/-- Recording changes nothing but the histories of the state that is left. -/
theorem get?_recordExit (hw : c.WellFormed) {histories : Histories} {s h : Nat} {before : Status}
    {states : StateSet} (hget : (histories.recordExit c s before).get? h = some states) :
    histories.get? h = some states ∨
      c.parent h = some s ∧ ∃ depth, states = Histories.remembered c s depth before := by
  -- Each history that is recorded replaces its own entry only.
  refine List.foldlRecOn (motive := fun later : Histories => later.get? h = some states →
    histories.get? h = some states ∨
      c.parent h = some s ∧ ∃ depth, states = Histories.remembered c s depth before)
    (c.node s).histories _ .inl ?_ hget
  intro later hlater x hx hnew
  split at hnew
  · next depth _ =>
    rw [SortedMap.get?_insert] at hnew
    split at hnew
    · next hhx =>
      subst hhx
      exact .inr ⟨(hw.mem_histories.1 hx).1, depth, (Option.some.inj hnew).symm⟩
    · exact hlater hnew
  · exact hlater hnew

/-- Of the histories `own`, each remembers what was active in the state `s`. -/
theorem get?_foldl_remembered {h : Nat} {depth : HistoryDepth} (hh : c.kind h = .history depth)
    (s : Nat) (before : Status) (own : List Nat) (histories : Histories) :
    (own.foldl (fun histories x =>
      match c.kind x with
      | .history depth => histories.insert x (Histories.remembered c s depth before)
      | _ => histories) histories).get? h =
      if h ∈ own then some (Histories.remembered c s depth before) else histories.get? h := by
  induction own generalizing histories with
  | nil => rfl
  | cons x rest ih =>
    rw [List.foldl_cons, ih]
    by_cases hx : h = x
    · subst hx
      simp [hh, SortedMap.get?_insert]
    · have hsame : ∀ states, (histories.insert x states).get? h = histories.get? h := by
        intro states
        rw [SortedMap.get?_insert, if_neg hx]
      simp only [List.mem_cons, hx, false_or]
      congr 1
      split
      · exact hsame _
      · rfl

/-- When a state is left, each of its histories remembers what was active, and no other history
changes. -/
theorem get?_recordExit_eq (hw : c.WellFormed) (histories : Histories) {h : Nat}
    {depth : HistoryDepth} (hh : c.kind h = .history depth) (s : Nat) (before : Status) :
    (histories.recordExit c s before).get? h =
      if c.parent h = some s then some (Histories.remembered c s depth before)
      else histories.get? h := by
  have hmem : h ∈ (c.node s).histories ↔ c.parent h = some s :=
    hw.mem_histories.trans (and_iff_left ⟨depth, hh⟩)
  simp only [← hmem]
  exact get?_foldl_remembered hh s before (c.node s).histories histories

/-- What a history remembers after its state was left, or was not. -/
theorem get?_recordAll (hw : c.WellFormed) {h b : Nat} {depth : HistoryDepth}
    (hh : c.kind h = .history depth) (hb : c.parent h = some b) (before : Status)
    (exits : List Nat) (histories : Histories) :
    (exits.foldl (fun histories s => histories.recordExit c s before) histories).get? h =
      if b ∈ exits then some (Histories.remembered c b depth before) else histories.get? h := by
  induction exits generalizing histories with
  | nil => rfl
  | cons s rest ih =>
    rw [List.foldl_cons, ih, get?_recordExit_eq hw histories hh, hb]
    by_cases hbs : b = s
    · subst hbs
      simp
    · simp [hbs]

theorem remembers_empty : c.Remembers ∅ := by
  intro h p states _ _ hget
  simp at hget

theorem Chart.Remembers.recordExit (hw : c.WellFormed) {histories : Histories}
    (hr : c.Remembers histories) {before : Status} {active : StateSet} (hl : c.Legal active)
    (hstates : ∀ x ∈ before.states, x ∈ active) (hall : ∀ x ∈ before.all, x ∈ active) (s : Nat) :
    c.Remembers (histories.recordExit c s before) := by
  intro h p states hh hp hget
  rcases get?_recordExit hw hget with hget | ⟨hs, depth, rfl⟩
  · exact hr h p states hh hp hget
  · obtain rfl : s = p := Option.some.inj (hs.symm.trans hp)
    have hactive : ∀ x ∈ Histories.remembered c s depth before, x ∈ active :=
      remembered_subset s depth hstates hall
    refine ⟨fun x hx => ⟨hl.ordinary (hactive x hx), below_of_remembered hw hx⟩, ?_⟩
    intro x hx y hy
    exact hw.joinable_of_legal hl (hactive x hx) (hactive y hy)

theorem Histories.Recorded.remembers (hw : c.WellFormed) {histories : Histories}
    (h : Histories.Recorded c histories) : c.Remembers histories := by
  induction h with
  | empty => exact remembers_empty
  | @exit histories h conf hl s pending ih =>
    refine ih.recordExit hw hl ?_ ?_ s
    · exact fun x hx => (StateSet.mem_filter.1 hx).1
    · intro x hx
      rwa [Status.all_capture hw hl] at hx

theorem recall_cases (hw : c.WellFormed) (histories : Histories) {h : Nat} (hh : c.IsHistory h) :
    (∃ states, histories.get? h = some states ∧ c.recalled histories h = states.members ∧
      states.members ≠ []) ∨
    ∃ t, (c.node h).transitions = [t] ∧ (c.transition t).targets ≠ [] ∧
      c.recalled histories h = (c.transition t).targets := by
  obtain ⟨t, ht, hne⟩ := hw.pseudo_transition hh.isPseudo
  unfold Chart.recalled
  split
  · next states hstates =>
    obtain ⟨hget, hsome⟩ := Option.filter_eq_some_iff.1 hstates
    refine .inl ⟨states, hget, rfl, ?_⟩
    simpa [StateSet.isEmpty] using hsome
  · exact .inr ⟨t, ht, hne, by rw [ht]; rfl⟩

theorem Chart.DefaultsCompatible.joined (hw : c.WellFormed) (h : c.DefaultsCompatible) :
    c.DefaultsJoined := by
  intro s t hs ht
  have hcompatible := h s (Chart.lt_size_of_isPseudo hs.isPseudo) hs t ht
  exact (hw.areCompatible_iff.1 hcompatible).imp Chart.Orthogonal.joinable

theorem Chart.Remembers.recallsBelow (hw : c.WellFormed) (hc : c.Checked) (hp : c.Plain)
    {histories : Histories} (hr : c.Remembers histories) : c.RecallsBelow histories := by
  intro h p hh hparent
  rcases recall_cases hw histories hh with ⟨states, hget, hrecall, hne⟩ | ⟨t, ht, hne, hrecall⟩
  · rw [hrecall]
    exact ⟨hne, fun x hx => (hr h p states hh hparent hget).1 x hx⟩
  · rw [hrecall]
    refine ⟨hne, ?_⟩
    intro x hx
    have hmem : t ∈ (c.node h).transitions := by rw [ht]; exact List.mem_singleton.2 rfl
    refine ⟨Expansion.ordinary_of_targets hw hp hh.isPseudo hmem hx, ?_⟩
    obtain ⟨depth, hk⟩ := hh
    cases depth with
    | shallow => exact hw.below_parent (hc.shallow hk hparent hmem x hx)
    | deep => exact hc.deep hk hparent hmem x hx

theorem Chart.Remembers.recallsJoined (hw : c.WellFormed) (hd : c.DefaultsJoined)
    {histories : Histories} (hr : c.Remembers histories) : c.RecallsJoined histories := by
  intro h hh
  rcases recall_cases hw histories hh with ⟨states, hget, hrecall, -⟩ | ⟨t, ht, -, hrecall⟩
  · obtain ⟨p, hparent⟩ := hw.pseudo_parent hh.isPseudo
    rw [hrecall]
    exact List.pairwise_of_forall_mem_list (hr h p states hh hparent hget).2
  · rw [hrecall]
    exact hd h t hh (by rw [ht]; exact List.mem_singleton.2 rfl)

end Statechart
