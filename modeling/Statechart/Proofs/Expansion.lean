import Statechart.Interpreter.Expansion
import Statechart.Proofs.Chart.Build
import Statechart.Proofs.Chart.Legality

/-!
What targets expand to. Two invariants carry the argument along the queue. The first says that
nothing is lost: whatever was expanded has led to something below it that waits or was reached.
The second says that nothing clashes: the states that wait, those that were reached and those
that stay can all be active together. When nothing is left to expand, the first gives every
parallel state around the states reached all its regions, the second makes these states
joinable, and so their closure is legal.
-/

namespace Statechart

namespace Chart

/-- No default and no start names a pseudo-state; a transition names none or just one history. -/
structure Plain (c : Chart) : Prop where
  start : ∀ x ∈ c.initial, c.isPseudo x = false
  defaults : ∀ s < c.nodes.size, c.isPseudo s = true → ∀ t ∈ (c.node s).transitions,
    ∀ x ∈ (c.transition t).targets, c.isPseudo x = false
  targets : ∀ t < c.transitions.size, c.isPseudo (c.transition t).source = false →
    (∀ x ∈ (c.transition t).targets, c.isPseudo x = false) ∨
      (c.transition t).targets.length = 1 ∧ ∀ x ∈ (c.transition t).targets, c.IsHistory x

/-- As far as target lists can lead without the default of a history: neither the start nor a
default entry names a pseudo-state, and a transition of a state names none or just one history. -/
structure Direct (c : Chart) : Prop where
  start : ∀ x ∈ c.initial, c.isPseudo x = false
  entries : ∀ i, c.kind i = .initial → ∀ t ∈ (c.node i).transitions,
    ∀ x ∈ (c.transition t).targets, c.isPseudo x = false
  targets : ∀ t < c.transitions.size, c.isPseudo (c.transition t).source = false →
    (∀ x ∈ (c.transition t).targets, c.isPseudo x = false) ∨
      (c.transition t).targets.length = 1 ∧ ∀ x ∈ (c.transition t).targets, c.IsHistory x

/-- The state that a node speaks for: itself, or the state around it if it is a pseudo-state. -/
def anchor (c : Chart) (s : Nat) : Nat :=
  if c.isPseudo s then (c.parent s).getD s else s

/-- What `a` and `b` lead to can be active together. -/
def Apart (c : Chart) (a b : Nat) : Prop :=
  c.Joinable (c.anchor a) (c.anchor b) ∧
    (c.isPseudo a = true ∨ c.isPseudo b = true → c.Orthogonal (c.anchor a) (c.anchor b))

/-- What the history `h` leads to: what it remembers, or else its default. -/
def recalled (c : Chart) (histories : Histories) (h : Nat) : List Nat :=
  match (histories.get? h).filter (fun states => !states.isEmpty) with
  | some states => states.members
  | none =>
    match (c.node h).transitions.head? with
    | some t => (c.transition t).targets
    | none => []

/-- Histories lead to something inside their state. -/
def RecallsBelow (c : Chart) (histories : Histories) : Prop :=
  ∀ h p, c.IsHistory h → c.parent h = some p →
    c.recalled histories h ≠ [] ∧ ∀ x ∈ c.recalled histories h, c.Ordinary x ∧ c.Below x p

/-- Histories lead to states that can be active together. -/
def RecallsJoined (c : Chart) (histories : Histories) : Prop :=
  ∀ h, c.IsHistory h → (c.recalled histories h).Pairwise c.Joinable

variable {c : Chart}

theorem isPseudo_of_initial {i : Nat} (h : c.kind i = .initial) : c.isPseudo i = true := by
  rw [isPseudo, h]
  rfl

theorem Plain.direct (h : c.Plain) : c.Direct where
  start := h.start
  entries i hi :=
    h.defaults i (lt_size_of_isPseudo (isPseudo_of_initial hi)) (isPseudo_of_initial hi)
  targets := h.targets

theorem anchor_of_ordinary {s : Nat} (h : c.isPseudo s = false) : c.anchor s = s := by
  simp [anchor, h]

theorem anchor_of_pseudo {s p : Nat} (h : c.isPseudo s = true) (hp : c.parent s = some p) :
    c.anchor s = p := by
  simp [anchor, h, hp]

theorem Apart.symm {a b : Nat} (h : c.Apart a b) : c.Apart b a :=
  ⟨h.1.symm, fun hpseudo => (h.2 hpseudo.symm).symm⟩

theorem apart_of_joinable {a b : Nat} (ha : c.isPseudo a = false) (hb : c.isPseudo b = false)
    (h : c.Joinable a b) : c.Apart a b := by
  refine ⟨by rwa [anchor_of_ordinary ha, anchor_of_ordinary hb], ?_⟩
  rintro (hpseudo | hpseudo)
  · rw [ha] at hpseudo
    cases hpseudo
  · rw [hb] at hpseudo
    cases hpseudo

theorem apart_of_orthogonal {a b : Nat} (h : c.Orthogonal (c.anchor a) (c.anchor b)) :
    c.Apart a b :=
  ⟨h.joinable, fun _ => h⟩

theorem joinable_of_apart {a b : Nat} (ha : c.isPseudo a = false) (hb : c.isPseudo b = false)
    (h : c.Apart a b) : c.Joinable a b := by
  have hj := h.1
  rwa [anchor_of_ordinary ha, anchor_of_ordinary hb] at hj

/-- The nodes that stand for states and histories. -/
def Leading (c : Chart) (s : Nat) : Prop :=
  c.Ordinary s ∨ c.IsHistory s

theorem Leading.lt_size {s : Nat} (h : c.Leading s) : s < c.nodes.size := by
  rcases h with h | ⟨depth, h⟩
  · exact h.1
  · exact lt_size_of_ne_simple (by simp [h])

end Chart

namespace Expansion

/-- What the expansion of `s` notes in `after` and leads to. -/
inductive Expands (c : Chart) (histories : Histories) (queue : List Nat) (s : Nat)
    (before after : Expansion) : List Nat → Prop where
  | atomic (hs : c.isAtomic s = true) (htargets : after.targets = before.targets.insert s) :
    Expands c histories queue s before after []
  | entered {a : Nat} (hs : c.kind s = .compound) (ha : a ∈ queue ∨ a ∈ before.targets)
      (hbelow : c.Below a s) (htargets : after.targets = before.targets) :
    Expands c histories queue s before after []
  | entry {i t : Nat} (hs : c.kind s = .compound)
      (hfree : ∀ a, a ∈ queue ∨ a ∈ before.targets → ¬ c.Below a s)
      (hi : c.kind i = .initial) (hp : c.parent i = some s)
      (ht : t ∈ (c.node i).transitions) (htargets : after.targets = before.targets)
      (hdefault : c.defaultTransition? s = some t) :
    Expands c histories queue s before after (c.transition t).targets
  | regions (hs : c.kind s = .parallel) (htargets : after.targets = before.targets) :
    Expands c histories queue s before after (c.children s)
  | history (hs : c.IsHistory s) (htargets : after.targets = before.targets) :
    Expands c histories queue s before after (c.recalled histories s)

variable {c : Chart} {histories : Histories}

theorem expands_expand (hw : c.WellFormed) (histories : Histories) (queue : List Nat) {s : Nat}
    (e : Expansion) (hs : c.Leading s) : (expand c histories queue s e).1.visited = e.visited ∧
      Expands c histories queue s e (expand c histories queue s e).1
        (expand c histories queue s e).2 := by
  unfold expand
  cases hk : c.kind s with
  | simple => exact ⟨rfl, .atomic (by rw [Chart.isAtomic, hk]; rfl) rfl⟩
  | final => exact ⟨rfl, .atomic (by rw [Chart.isAtomic, hk]; rfl) rfl⟩
  | compound =>
    obtain ⟨i, t, hinitial, hi, hp, ht⟩ := hw.default_entry hk
    have hdefault : c.defaultTransition? s = some t := by
      simp [Chart.defaultTransition?, hinitial, ht]
    simp only [hdefault]
    split
    · next hany =>
      obtain ⟨a, ha, hbelow⟩ := List.any_eq_true.1 hany
      rw [List.mem_append] at ha
      exact ⟨rfl, .entered hk ha (Chart.isDescendant_iff.1 hbelow) rfl⟩
    · next hany =>
      refine ⟨rfl, .entry hk ?_ hi hp (by simp [ht]) rfl hdefault⟩
      intro a ha hbelow
      exact hany (List.any_eq_true.2 ⟨a, List.mem_append.2 ha, Chart.isDescendant_iff.2 hbelow⟩)
  | parallel => exact ⟨rfl, .regions hk rfl⟩
  | history depth =>
    -- Whatever it leads to is what it recalls.
    have hcase : ∀ after next, after.targets = e.targets → next = c.recalled histories s →
        Expands c histories queue s e after next := by
      rintro after next htargets rfl
      exact .history ⟨depth, hk⟩ htargets
    cases hm : (histories.get? s).filter (fun states => !states.isEmpty) with
    | some states =>
      refine ⟨rfl, hcase _ _ rfl ?_⟩
      simp [Chart.recalled, hm]
    | none =>
      cases ht : (c.node s).transitions.head? with
      | some t =>
        refine ⟨rfl, hcase _ _ rfl ?_⟩
        simp [Chart.recalled, hm, ht]
      | none =>
        refine ⟨rfl, hcase _ _ rfl ?_⟩
        simp [Chart.recalled, hm, ht]
  | initial =>
    rcases hs with ⟨-, hpseudo⟩ | ⟨depth, hdepth⟩
    · rw [Chart.isPseudo, hk] at hpseudo
      cases hpseudo
    · rw [hk] at hdepth
      cases hdepth

theorem ordinary_of_targets (hw : c.WellFormed) (hp : c.Plain) {s t x : Nat}
    (hs : c.isPseudo s = true) (ht : t ∈ (c.node s).transitions)
    (hx : x ∈ (c.transition t).targets) : c.Ordinary x :=
  ⟨hw.targets_lt hx, hp.defaults s (Chart.lt_size_of_isPseudo hs) hs t ht x hx⟩

/-- A node leads to states below its anchor. -/
theorem Expands.next_below (hw : c.WellFormed) (hc : c.Checked) (hp : c.Direct)
    (hr : c.RecallsBelow histories) {queue next : List Nat} {s : Nat} {e e' : Expansion}
    (h : Expands c histories queue s e e' next) :
    ∀ x ∈ next, c.Ordinary x ∧ c.Below x (c.anchor s) := by
  intro x hx
  cases h with
  | atomic => cases hx
  | entered => cases hx
  | entry hs _ hi hparent ht =>
    rw [Chart.anchor_of_ordinary (Chart.IsComposite.ordinary (.inl hs)).2]
    exact ⟨⟨hw.targets_lt hx, hp.entries _ hi _ ht x hx⟩, (hc.entry hi hparent ht).2 x hx⟩
  | regions hs =>
    rw [Chart.anchor_of_ordinary (Chart.IsComposite.ordinary (.inr hs)).2]
    exact ⟨hw.ordinary_of_mem_children hx, hw.below_parent (hw.mem_children.1 hx).1⟩
  | history hs =>
    obtain ⟨p, hparent⟩ := hw.pseudo_parent hs.isPseudo
    rw [Chart.anchor_of_pseudo hs.isPseudo hparent]
    exact (hr s p hs hparent).2 x hx

theorem Expands.next_joinable (hw : c.WellFormed) (hc : c.Checked)
    (hr : c.RecallsJoined histories) {queue next : List Nat} {s : Nat} {e e' : Expansion}
    (h : Expands c histories queue s e e' next) : next.Pairwise c.Joinable := by
  cases h with
  | atomic => exact .nil
  | entered => exact .nil
  | entry hs _ hi hparent ht =>
    exact (hc.entry hi hparent ht).1.imp Chart.Orthogonal.joinable
  | regions hs =>
    apply (hw.children_ascending s).imp_of_mem
    intro x y hx hy hxy
    exact (Chart.orthogonal_of_children hs (hw.mem_children.1 hx).1 (hw.mem_children.1 hy).1
      (Nat.ne_of_lt hxy)).joinable
  | history hs => exact hr s hs

/-- What is expanded has been reached, or something below its anchor is reached or waits. -/
theorem Expands.carried (hw : c.WellFormed) (hc : c.Checked) (hp : c.Direct)
    (hr : c.RecallsBelow histories) {queue next : List Nat} {s : Nat} {e e' : Expansion}
    (h : Expands c histories queue s e e' next) : s ∈ e'.targets ∨
      ∃ y, (y ∈ queue ++ next ∨ y ∈ e'.targets) ∧ c.Below y (c.anchor s) := by
  have hnext := h.next_below hw hc hp hr
  have hlead : next ≠ [] → ∃ y, (y ∈ queue ++ next ∨ y ∈ e'.targets) ∧
      c.Below y (c.anchor s) := by
    intro hne
    obtain ⟨y, hy⟩ := List.exists_mem_of_ne_nil _ hne
    exact ⟨y, .inl (List.mem_append_right _ hy), (hnext y hy).2⟩
  cases h with
  | atomic hs htargets => exact .inl (by simp [htargets])
  | @entered a hs ha hbelow htargets =>
    rw [Chart.anchor_of_ordinary (Chart.IsComposite.ordinary (.inl hs)).2]
    refine .inr ⟨a, ?_, hbelow⟩
    rw [htargets]
    exact ha.imp_left (List.mem_append_left _)
  | entry hs _ hi _ ht =>
    obtain ⟨t', ht', hne⟩ := hw.pseudo_transition (Chart.isPseudo_of_initial hi)
    rw [ht', List.mem_singleton] at ht
    subst ht
    exact .inr (hlead hne)
  | regions hs => exact .inr (hlead (hw.children_ne_nil (.inr hs)))
  | history hs =>
    obtain ⟨p, hparent⟩ := hw.pseudo_parent hs.isPseudo
    exact .inr (hlead (hr s p hs hparent).1)

/-- What was to be expanded waits or was expanded, and what was expanded lives on in something
below it. -/
structure Supported (c : Chart) (seeds queue : List Nat) (e : Expansion) : Prop where
  leading : ∀ q ∈ queue, c.Leading q
  fresh : ∀ q ∈ queue, c.isPseudo q = true → q ∉ e.visited
  once : (queue.filter c.isPseudo).Nodup
  atomic : c.AllAtomic e.targets
  bounded : ∀ v ∈ e.visited, v < c.nodes.size
  carried : ∀ v ∈ e.visited, v ∈ e.targets ∨
    ∃ y, (y ∈ queue ∨ y ∈ e.targets) ∧ c.Below y (c.anchor v)
  kept : ∀ x ∈ seeds, x ∈ e.visited ∨ x ∈ queue

theorem supported_start {seeds : List Nat} (hleading : ∀ q ∈ seeds, c.Leading q)
    (honce : (seeds.filter c.isPseudo).Nodup) : Supported c seeds seeds .empty where
  leading := hleading
  fresh _ _ _ := StateSet.not_mem_empty _
  once := honce
  atomic _ h := absurd h (StateSet.not_mem_empty _)
  bounded _ h := absurd h (StateSet.not_mem_empty _)
  carried _ h := absurd h (StateSet.not_mem_empty _)
  kept _ h := .inr h

section Steps

variable {seeds queue : List Nat} {e : Expansion}

/-- What lives on in `q` lives on in what `q` has become. -/
theorem below_anchor_of_below (hw : c.WellFormed) {q v y : Nat} (hq : c.Leading q)
    (hqv : c.Below q (c.anchor v)) (hy : c.Below y (c.anchor q)) : c.Below y (c.anchor v) := by
  rcases hq with hq | hq
  · rw [Chart.anchor_of_ordinary hq.2] at hy
    exact hw.below_of_below_of_within hy hqv.within
  · obtain ⟨p, hp⟩ := hw.pseudo_parent hq.isPseudo
    rw [Chart.anchor_of_pseudo hq.isPseudo hp] at hy
    exact hw.below_of_below_of_within hy ((hw.below_iff_within_parent hp).1 hqv)

/-- A node that was expanded before need not wait. -/
theorem Supported.drop (hw : c.WellFormed) {q : Nat} (h : Supported c seeds (q :: queue) e)
    (hq : q ∈ e.visited) : Supported c seeds queue e where
  leading x hx := h.leading x (List.mem_cons_of_mem q hx)
  fresh x hx := h.fresh x (List.mem_cons_of_mem q hx)
  once := h.once.sublist ((List.sublist_cons_self q queue).filter _)
  atomic := h.atomic
  bounded := h.bounded
  carried := by
    -- A visited node that waits is a state, so that what it lives on in is not itself.
    have hordinary : c.isPseudo q = false := by
      rw [Bool.eq_false_iff]
      exact fun hpseudo => h.fresh q (by simp) hpseudo hq
    have hlives : q ∈ e.targets ∨ ∃ y, (y ∈ queue ∨ y ∈ e.targets) ∧ c.Below y (c.anchor q) := by
      rcases h.carried q hq with ht | ⟨y, hy, hbelow⟩
      · exact .inl ht
      · refine .inr ⟨y, ?_, hbelow⟩
        rcases hy with hy | hy
        · rcases List.mem_cons.1 hy with rfl | hy
          · rw [Chart.anchor_of_ordinary hordinary] at hbelow
            exact absurd hbelow (hw.not_below_self y)
          · exact .inl hy
        · exact .inr hy
    intro v hv
    rcases h.carried v hv with ht | ⟨y, hy, hbelow⟩
    · exact .inl ht
    · rcases hy with hy | hy
      · rcases List.mem_cons.1 hy with rfl | hy
        · rcases hlives with ht | ⟨z, hz, hzbelow⟩
          · exact .inr ⟨y, .inr ht, hbelow⟩
          · exact .inr ⟨z, hz, below_anchor_of_below hw (h.leading y (by simp)) hbelow hzbelow⟩
        · exact .inr ⟨y, .inl hy, hbelow⟩
      · exact .inr ⟨y, .inr hy, hbelow⟩
  kept := by
    intro x hx
    rcases h.kept x hx with hv | hv
    · exact .inl hv
    · rcases List.mem_cons.1 hv with rfl | hv
      · exact .inl hq
      · exact .inr hv

theorem Supported.dropWhile (hw : c.WellFormed) (h : Supported c seeds queue e) :
    Supported c seeds (queue.dropWhile (fun s => decide (s ∈ e.visited))) e := by
  induction queue with
  | nil => exact h
  | cons q rest ih =>
    rw [List.dropWhile_cons]
    split
    · next hq => exact ih (h.drop hw (by simpa using hq))
    · exact h

/-- More states may wait. -/
theorem Supported.start (h : Supported c seeds [] e) (hordinary : ∀ q ∈ queue, c.Ordinary q) :
    Supported c seeds queue e where
  leading q hq := .inl (hordinary q hq)
  fresh q hq hpseudo := by
    rw [(hordinary q hq).2] at hpseudo
    cases hpseudo
  once := by
    have hnone : queue.filter c.isPseudo = [] :=
      List.filter_eq_nil_iff.2 (fun q hq => by simp [(hordinary q hq).2])
    rw [hnone]
    exact .nil
  atomic := h.atomic
  bounded := h.bounded
  carried := by
    intro v hv
    rcases h.carried v hv with ht | ⟨y, hy, hbelow⟩
    · exact .inl ht
    · exact .inr ⟨y, .inr (hy.resolve_left (List.not_mem_nil)), hbelow⟩
  kept x hx := .inl ((h.kept x hx).resolve_right (List.not_mem_nil))

/-- The targets after an expansion: those before it, and the node if it is atomic. -/
theorem Expands.mem_targets {next : List Nat} {s : Nat} {e e' : Expansion}
    (h : Expands c histories queue s e e' next) {x : Nat} :
    x ∈ e'.targets ↔ x ∈ e.targets ∨ x = s ∧ c.isAtomic s = true := by
  have hsame : c.isAtomic s = false → e'.targets = e.targets →
      (x ∈ e'.targets ↔ x ∈ e.targets ∨ x = s ∧ c.isAtomic s = true) := by
    intro hs htargets
    simp [hs, htargets]
  cases h with
  | atomic hs htargets =>
    rw [htargets, StateSet.mem_insert]
    simp [hs, or_comm]
  | entered hs _ _ htargets => exact hsame (Chart.IsComposite.not_atomic (.inl hs)) htargets
  | entry hs _ _ _ _ htargets => exact hsame (Chart.IsComposite.not_atomic (.inl hs)) htargets
  | regions hs htargets => exact hsame (Chart.IsComposite.not_atomic (.inr hs)) htargets
  | history hs htargets =>
    obtain ⟨depth, hs⟩ := hs
    exact hsame (by rw [Chart.isAtomic, hs]; rfl) htargets

/-- What a node leads to keeps alive what the node was to keep alive. -/
theorem Supported.carried_expand (hw : c.WellFormed) (hc : c.Checked) (hp : c.Direct)
    (hr : c.RecallsBelow histories) {q : Nat} {next : List Nat} {e' : Expansion}
    (h : Supported c seeds (q :: queue) e)
    (hexpands : Expands c histories queue q { e with visited := e.visited.insert q } e' next)
    {v : Nat} (hv : v = q ∨ v ∈ e.visited) :
    v ∈ e'.targets ∨ ∃ y, (y ∈ queue ++ next ∨ y ∈ e'.targets) ∧ c.Below y (c.anchor v) := by
  have hlives := hexpands.carried hw hc hp hr
  have hold : ∀ {x}, x ∈ e.targets → x ∈ e'.targets := fun hx => hexpands.mem_targets.2 (.inl hx)
  rcases hv with rfl | hv
  · exact hlives
  · rcases h.carried v hv with ht | ⟨y, hy, hbelow⟩
    · exact .inl (hold ht)
    · rcases hy with hy | hy
      · rcases List.mem_cons.1 hy with rfl | hy
        · rcases hlives with ht | ⟨z, hz, hzbelow⟩
          · exact .inr ⟨y, .inr ht, hbelow⟩
          · have hq := h.leading y (by simp)
            exact .inr ⟨z, hz, below_anchor_of_below hw hq hbelow hzbelow⟩
        · exact .inr ⟨y, .inl (List.mem_append_left _ hy), hbelow⟩
      · exact .inr ⟨y, .inr (hold hy), hbelow⟩

theorem Supported.expand (hw : c.WellFormed) (hc : c.Checked) (hp : c.Direct)
    (hr : c.RecallsBelow histories) {q : Nat} {next : List Nat} {e' : Expansion}
    (h : Supported c seeds (q :: queue) e) (hvisited : e'.visited = e.visited.insert q)
    (hexpands : Expands c histories queue q { e with visited := e.visited.insert q } e' next) :
    Supported c seeds (queue ++ next) e' where
  leading := by
    intro x hx
    rcases List.mem_append.1 hx with hx | hx
    · exact h.leading x (List.mem_cons_of_mem q hx)
    · exact .inl (hexpands.next_below hw hc hp hr x hx).1
  fresh := by
    intro x hx hpseudo
    rcases List.mem_append.1 hx with hx | hx
    · rw [hvisited, StateSet.mem_insert, not_or]
      refine ⟨?_, h.fresh x (List.mem_cons_of_mem q hx) hpseudo⟩
      rintro rfl
      have honce := h.once
      rw [List.filter_cons_of_pos hpseudo, List.nodup_cons] at honce
      exact honce.1 (List.mem_filter.2 ⟨hx, hpseudo⟩)
    · rw [(hexpands.next_below hw hc hp hr x hx).1.2] at hpseudo
      cases hpseudo
  once := by
    have hnone : next.filter c.isPseudo = [] :=
      List.filter_eq_nil_iff.2
        (fun x hx => by simp [(hexpands.next_below hw hc hp hr x hx).1.2])
    rw [List.filter_append, hnone, List.append_nil]
    exact h.once.sublist ((List.sublist_cons_self q queue).filter _)
  atomic := by
    intro x hx
    rcases hexpands.mem_targets.1 hx with hx | ⟨rfl, hatomic⟩
    · exact h.atomic x hx
    · exact ⟨hatomic, (h.leading x (by simp)).lt_size⟩
  bounded := by
    intro v hv
    rw [hvisited, StateSet.mem_insert] at hv
    rcases hv with rfl | hv
    · exact (h.leading v (by simp)).lt_size
    · exact h.bounded v hv
  carried := by
    intro v hv
    rw [hvisited, StateSet.mem_insert] at hv
    exact h.carried_expand hw hc hp hr hexpands hv
  kept := by
    intro x hx
    rw [hvisited, StateSet.mem_insert]
    rcases h.kept x hx with hv | hv
    · exact .inl (.inr hv)
    · rcases List.mem_cons.1 hv with rfl | hv
      · exact .inl (.inl rfl)
      · exact .inr (List.mem_append_left _ hv)

end Steps

/-- What waits, what was reached and what stays can all be active together, and nothing that
stays lies inside what waits. -/
structure Joined (c : Chart) (residual : StateSet) (queue : List Nat) (e : Expansion) : Prop where
  waiting : queue.Pairwise c.Apart
  settled : ∀ {a b}, a ∈ residual ∨ a ∈ e.targets → b ∈ residual ∨ b ∈ e.targets →
    c.Joinable a b
  between : ∀ {q f}, q ∈ queue → f ∈ residual ∨ f ∈ e.targets → c.Apart q f
  outside : ∀ {q r}, q ∈ queue → r ∈ residual → ¬ c.Within r (c.anchor q)

theorem Joined.sublist {residual : StateSet} {queue queue' : List Nat} {e : Expansion}
    (h : Joined c residual queue e) (hsub : queue'.Sublist queue) :
    Joined c residual queue' e where
  waiting := h.waiting.sublist hsub
  settled := h.settled
  between hq hf := h.between (hsub.subset hq) hf
  outside hq hr := h.outside (hsub.subset hq) hr

section Steps

variable {queue : List Nat} {e : Expansion} {residual : StateSet}

/-- What a node leads to goes together with what the node goes together with, unless that lies
inside the node and does not keep it from being entered by default. -/
theorem Expands.apart (hw : c.WellFormed) (hc : c.Checked) (hp : c.Direct)
    (hr : c.RecallsBelow histories) {q w : Nat} {next : List Nat} {e' : Expansion}
    (h : Expands c histories queue q e e' next) (hqw : c.Apart q w)
    (hfree : w ∈ queue ∨ w ∈ e.targets ∨ ¬ c.Below w q) : ∀ x ∈ next, c.Apart x w := by
  intro x hx
  obtain ⟨hordinary, hbelow⟩ := h.next_below hw hc hp hr x hx
  by_cases hpseudo : c.isPseudo q = true ∨ c.isPseudo w = true
  · apply Chart.apart_of_orthogonal
    rw [Chart.anchor_of_ordinary hordinary.2]
    exact Chart.WellFormed.Orthogonal.mono hw (hqw.2 hpseudo) hbelow.within (.refl _)
  · simp only [not_or, Bool.not_eq_true] at hpseudo
    obtain ⟨hq, hwp⟩ := hpseudo
    have hjoin := Chart.joinable_of_apart hq hwp hqw
    rw [Chart.anchor_of_ordinary hq] at hbelow
    apply Chart.apart_of_joinable hordinary.2 hwp
    cases h with
    | atomic => cases hx
    | entered => cases hx
    | entry _ hnone =>
      apply hw.joinable_of_within hjoin hbelow.within
      rcases hfree with hw' | hw' | hw'
      · exact hnone w (.inl hw')
      · exact hnone w (.inr hw')
      · exact hw'
    | regions hs =>
      have hxq := (hw.mem_children.1 hx).1
      by_cases hwx : c.Within w x
      · exact .inr (.inl hwx)
      · rcases hjoin with hqw | hwq | horth
        · exact .inl (hw.within_trans hbelow.within hqw)
        · rcases Chart.within_iff.1 hwq with rfl | hwq
          · exact .inl hbelow.within
          · exact Chart.Orthogonal.joinable
              ⟨q, hs, hw.partAt_of_below hxq (.refl x) hwq hwx⟩
        · exact (Chart.WellFormed.Orthogonal.mono hw horth hbelow.within (.refl w)).joinable
    | history hs =>
      rw [hs.isPseudo] at hq
      cases hq

/-- What is settled after an expansion was settled before it, or it is the node itself. -/
theorem Expands.settled_before {q f : Nat} {next : List Nat} {e e' : Expansion}
    (hexpands : Expands c histories queue q e e' next) (hf : f ∈ residual ∨ f ∈ e'.targets) :
    (f ∈ residual ∨ f ∈ e.targets) ∨ f = q ∧ c.isPseudo q = false := by
  rcases hf with hf | hf
  · exact .inl (.inl hf)
  · rcases hexpands.mem_targets.1 hf with hf | ⟨rfl, hatomic⟩
    · exact .inl (.inr hf)
    · exact .inr ⟨rfl, Chart.isPseudo_of_isAtomic hatomic⟩

/-- What a node leads to goes together with what is settled. -/
theorem Joined.apart_next (hw : c.WellFormed) (hc : c.Checked) (hp : c.Direct)
    (hr : c.RecallsBelow histories) {q x f : Nat} {next : List Nat} {e e' : Expansion}
    (h : Joined c residual (q :: queue) e) (hexpands : Expands c histories queue q e e' next)
    (hx : x ∈ next) (hf : f ∈ residual ∨ f ∈ e.targets) : c.Apart x f := by
  have hq : q ∈ q :: queue := by simp
  refine hexpands.apart hw hc hp hr (h.between hq hf) ?_ x hx
  rcases hf with hf | hf
  · refine .inr (.inr ?_)
    intro hbelow
    have hnot := h.outside hq hf
    have hcomposite := hw.composite_of_below hbelow
    rw [Chart.anchor_of_ordinary hcomposite.ordinary.2] at hnot
    exact hnot hbelow.within
  · exact .inr (.inl hf)

theorem Joined.expand (hw : c.WellFormed) (hc : c.Checked) (hp : c.Direct)
    (hr : c.RecallsBelow histories) (hj : c.RecallsJoined histories)
    (hresidual : c.AllAtomic residual) {q : Nat} {next : List Nat} {e e' : Expansion}
    (h : Joined c residual (q :: queue) e) (htargets : c.AllAtomic e.targets)
    (hexpands : Expands c histories queue q e e' next) :
    Joined c residual (queue ++ next) e' := by
  have hnext := hexpands.next_below hw hc hp hr
  have hq : q ∈ q :: queue := by simp
  have hwait : ∀ {w}, w ∈ queue → w ∈ q :: queue := List.mem_cons_of_mem q
  have hapart : ∀ {w}, w ∈ queue → c.Apart q w := List.rel_of_pairwise_cons h.waiting
  have hnode : ∀ {f}, f ∈ residual ∨ f ∈ e.targets → c.isPseudo q = false → c.Joinable q f := by
    intro f hf hpseudo
    have hordinary : c.Ordinary f := hf.elim hresidual.ordinary htargets.ordinary
    exact Chart.joinable_of_apart hpseudo hordinary.2 (h.between hq hf)
  constructor
  case waiting =>
    refine List.pairwise_append.2 ⟨h.waiting.of_cons, ?_, ?_⟩
    · apply (hexpands.next_joinable hw hc hj).imp_of_mem
      intro x y hx hy hxy
      exact Chart.apart_of_joinable (hnext x hx).1.2 (hnext y hy).1.2 hxy
    · intro w hwq x hx
      exact (hexpands.apart hw hc hp hr (hapart hwq) (.inl hwq) x hx).symm
  case settled =>
    intro a b ha hb
    rcases hexpands.settled_before ha with ha | ⟨rfl, hpa⟩
    · rcases hexpands.settled_before hb with hb | ⟨rfl, hpb⟩
      · exact h.settled ha hb
      · exact (hnode ha hpb).symm
    · rcases hexpands.settled_before hb with hb | ⟨rfl, -⟩
      · exact hnode hb hpa
      · exact .refl _
  case between =>
    intro x f hx hf
    rcases List.mem_append.1 hx with hx | hx
    · rcases hexpands.settled_before hf with hf | ⟨rfl, -⟩
      · exact h.between (hwait hx) hf
      · exact (hapart hx).symm
    · rcases hexpands.settled_before hf with hf | ⟨rfl, hpf⟩
      · exact h.apart_next hw hc hp hr hexpands hx hf
      · -- Only a node without children is settled itself, and that leads nowhere.
        obtain ⟨hxo, hbelow⟩ := hnext x hx
        rw [Chart.anchor_of_ordinary hpf] at hbelow
        exact Chart.apart_of_joinable hxo.2 hpf (.inl hbelow.within)
  case outside =>
    intro x r hx hr' hwithin
    rcases List.mem_append.1 hx with hx | hx
    · exact h.outside (hwait hx) hr' hwithin
    · obtain ⟨hxo, hbelow⟩ := hnext x hx
      rw [Chart.anchor_of_ordinary hxo.2] at hwithin
      exact h.outside hq hr' (hw.within_trans hwithin hbelow.within)

theorem mem_missing (hw : c.WellFormed) {x : Nat} : x ∈ e.missing c residual ↔
    (∃ p f, (f ∈ residual ∨ f ∈ e.targets) ∧ c.Within f p ∧ c.kind p = .parallel ∧
      x ∈ c.children p) ∧
    (∀ f, f ∈ residual ∨ f ∈ e.targets → ¬ c.Within f x) ∧ x ∉ e.visited := by
  have hcovered : ∀ s, s ∈ c.closure (residual.members ++ e.targets.members) ↔
      ∃ f, (f ∈ residual ∨ f ∈ e.targets) ∧ c.Within f s := by
    intro s
    rw [hw.mem_closure]
    simp only [List.mem_append, StateSet.mem_def]
  unfold missing
  simp only [List.mem_filter, List.mem_flatMap, decide_eq_true_eq, ← StateSet.mem_def, hcovered]
  constructor
  · rintro ⟨⟨p, ⟨⟨f, hf, hfp⟩, hk⟩, hx⟩, hnone, hv⟩
    exact ⟨⟨p, f, hf, hfp, hk, hx⟩, fun f hf hfx => hnone ⟨f, hf, hfx⟩, hv⟩
  · rintro ⟨⟨p, f, hf, hfp, hk, hx⟩, hnone, hv⟩
    refine ⟨⟨p, ⟨⟨f, hf, hfp⟩, hk⟩, hx⟩, ?_, hv⟩
    rintro ⟨f, hf, hfx⟩
    exact hnone f hf hfx

/-- The missing regions go together with each other and with what is settled. -/
theorem Joined.start (hw : c.WellFormed) (hresidual : c.AllAtomic residual)
    (h : Joined c residual [] e) (htargets : c.AllAtomic e.targets) :
    Joined c residual (e.missing c residual) e := by
  have hatomic : ∀ {f}, f ∈ residual ∨ f ∈ e.targets → c.Ordinary f ∧ ¬ c.IsComposite f := by
    rintro f (hf | hf)
    · exact ⟨hresidual.ordinary hf, hresidual.not_composite hf⟩
    · exact ⟨htargets.ordinary hf, htargets.not_composite hf⟩
  have hregion : ∀ {x}, x ∈ e.missing c residual → c.Ordinary x := by
    intro x hx
    obtain ⟨⟨p, f, -, -, -, hxp⟩, -⟩ := (mem_missing hw).1 hx
    exact hw.ordinary_of_mem_children hxp
  -- A missing region goes together with all that goes together with what is settled.
  have hjoin : ∀ {x w}, x ∈ e.missing c residual →
      (∀ f, f ∈ residual ∨ f ∈ e.targets → c.Joinable w f) → ¬ c.Within w x →
      c.Joinable x w := by
    intro x w hx hwf hwx
    obtain ⟨⟨p, f, hf, hfp, hk, hxp⟩, -⟩ := (mem_missing hw).1 hx
    have hbelow : c.Below f p := by
      rcases Chart.within_iff.1 hfp with rfl | hbelow
      · exact absurd (.inr hk) (hatomic hf).2
      · exact hbelow
    exact hw.joinable_region hk (hw.mem_children.1 hxp).1 hbelow (hwf f hf) hwx
  have hsettled : ∀ {x f}, x ∈ e.missing c residual → f ∈ residual ∨ f ∈ e.targets →
      c.Joinable x f := by
    intro x f hx hf
    exact hjoin hx (fun g hg => h.settled hf hg) (((mem_missing hw).1 hx).2.1 f hf)
  refine ⟨?_, h.settled, ?_, ?_⟩
  · apply List.pairwise_of_forall_mem_list
    intro x hx y hy
    apply Chart.apart_of_joinable (hregion hx).2 (hregion hy).2
    by_cases hyx : c.Within y x
    · exact .inr (.inl hyx)
    · exact hjoin hx (fun f hf => hsettled hy hf) hyx
  · intro x f hx hf
    exact Chart.apart_of_joinable (hregion hx).2 (hatomic hf).1.2 (hsettled hx hf)
  · intro x r hx hr
    rw [Chart.anchor_of_ordinary (hregion hx).2]
    exact ((mem_missing hw).1 hx).2.1 r (.inl hr)

end Steps

section Drain

variable {residual : StateSet} {seeds : List Nat}

theorem pending_cases (c : Chart) (residual : StateSet) (queue : List Nat) (e : Expansion) :
    (queue.dropWhile (fun s => decide (s ∈ e.visited)) = [] ∧
      e.pending c residual queue = e.missing c residual) ∨
    e.pending c residual queue = queue.dropWhile (fun s => decide (s ∈ e.visited)) := by
  unfold pending
  split
  · next h => exact .inl ⟨h, rfl⟩
  · next h => exact .inr rfl

theorem not_mem_visited_of_pending (hw : c.WellFormed) {queue rest : List Nat} {q : Nat}
    {e : Expansion} (h : e.pending c residual queue = q :: rest) : q ∉ e.visited := by
  rcases pending_cases c residual queue e with
    ⟨-, hpending⟩ | hpending
  · rw [h] at hpending
    have hq : q ∈ e.missing c residual := by rw [← hpending]; exact List.mem_cons_self
    exact ((mem_missing hw).1 hq).2.2
  · rw [h] at hpending
    have hhead := List.head?_dropWhile_not (fun s => decide (s ∈ e.visited)) queue
    rw [← hpending] at hhead
    simpa using hhead

theorem ordinary_of_mem_missing (hw : c.WellFormed) {e : Expansion} {x : Nat}
    (hx : x ∈ e.missing c residual) : c.Ordinary x := by
  obtain ⟨⟨p, f, -, -, -, hxp⟩, -⟩ := (mem_missing hw).1 hx
  exact hw.ordinary_of_mem_children hxp

/-- What is still to be expanded consists of nodes. -/
theorem pending_lt_size (hw : c.WellFormed) {queue : List Nat}
    (hqueue : ∀ q ∈ queue, q < c.nodes.size) (e : Expansion) :
    ∀ q ∈ e.pending c residual queue, q < c.nodes.size := by
  intro q hq
  rcases pending_cases c residual queue e with ⟨-, hmissing⟩ | hrest
  · rw [hmissing] at hq
    exact (ordinary_of_mem_missing hw hq).1
  · rw [hrest] at hq
    exact hqueue q ((List.dropWhile_sublist _).subset hq)

/-- `inv` is an invariant of the queue and of what is noted: it is kept when marked nodes are
dropped from the queue, when the missing regions are queued and when a node is expanded. -/
structure KeptByDrain (c : Chart) (histories : Histories) (residual : StateSet) (seeds : List Nat)
    (inv : List Nat → Expansion → Prop) : Prop where
  supported : ∀ {queue e}, inv queue e → Supported c seeds queue e
  drop : ∀ {queue e}, inv queue e → inv (queue.dropWhile (fun s => decide (s ∈ e.visited))) e
  missing : ∀ {e}, inv [] e → inv (e.missing c residual) e
  expand : ∀ {q queue e}, inv (q :: queue) e → q ∉ e.visited →
    inv (queue ++ (expand c histories queue q { e with visited := e.visited.insert q }).2)
      (expand c histories queue q { e with visited := e.visited.insert q }).1

namespace KeptByDrain

variable {inv : List Nat → Expansion → Prop} (hinv : KeptByDrain c histories residual seeds inv)

include hinv

theorem pending {queue : List Nat} {e : Expansion} (h : inv queue e) :
    inv (e.pending c residual queue) e := by
  rcases pending_cases c residual queue e with ⟨hnil, hpending⟩ | hpending
  · have hdropped := hinv.drop h
    rw [hnil] at hdropped
    rw [hpending]
    exact hinv.missing hdropped
  · rw [hpending]
    exact hinv.drop h

/-- When nothing is pending, the queue is empty and no region is missing. -/
theorem done {queue : List Nat} {e : Expansion} (h : inv queue e)
    (hnil : e.pending c residual queue = []) : inv [] e ∧ e.missing c residual = [] := by
  have hdropped := hinv.drop h
  have hempty : queue.dropWhile (fun s => decide (s ∈ e.visited)) = [] := by
    rcases pending_cases c residual queue e with ⟨hempty, -⟩ | hpending
    · exact hempty
    · rw [← hpending, hnil]
  rw [hempty] at hdropped
  refine ⟨hdropped, ?_⟩
  unfold Expansion.pending at hnil
  rw [hempty] at hnil
  exact hnil

/-- The invariant holds when nothing is left to expand. There are steps enough: every step marks
a node that was not marked before. -/
theorem drain (hw : c.WellFormed) (steps : Nat) (queue : List Nat) (e : Expansion)
    (h : inv queue e) (hsteps : c.nodes.size ≤ steps + e.visited.size) :
    inv [] (drain c histories residual steps queue e) ∧
      (drain c histories residual steps queue e).missing c residual = [] := by
  induction steps generalizing queue e with
  | zero =>
    change inv [] e ∧ e.missing c residual = []
    apply hinv.done h
    -- All nodes are marked, so that none is left.
    cases hq : e.pending c residual queue with
    | nil => rfl
    | cons q rest =>
      have hsupported := hinv.supported (hinv.pending h)
      have hlead := hsupported.leading q (by simp [hq])
      have hmarked := StateSet.mem_of_le_size hsupported.bounded (by omega) hlead.lt_size
      exact absurd hmarked (not_mem_visited_of_pending hw hq)
  | succ steps ih =>
    rw [Expansion.drain]
    cases hq : e.pending c residual queue with
    | nil => exact hinv.done h hq
    | cons q rest =>
      have hnew := not_mem_visited_of_pending hw hq
      have hnext := hinv.pending h
      rw [hq] at hnext
      have hlead := (hinv.supported hnext).leading q (by simp)
      have hvisited := (expands_expand hw histories rest
        { e with visited := e.visited.insert q } hlead).1
      have hsize : c.nodes.size ≤ steps + (Expansion.expand c histories rest q
          { e with visited := e.visited.insert q }).1.visited.size := by
        rw [hvisited, StateSet.size_insert hnew]
        omega
      exact ih _ _ (hinv.expand hnext hnew) hsize

end KeptByDrain

theorem keptByDrain_supported (hw : c.WellFormed) (hc : c.Checked) (hp : c.Direct)
    (hr : c.RecallsBelow histories) (residual : StateSet) :
    KeptByDrain c histories residual seeds (Supported c seeds) where
  supported := id
  drop h := h.dropWhile hw
  missing h := h.start (fun _ hx => ordinary_of_mem_missing hw hx)
  expand := by
    intro q queue e h _
    obtain ⟨hvisited, hexpands⟩ := expands_expand hw histories queue
      { e with visited := e.visited.insert q } (h.leading q (by simp))
    exact h.expand hw hc hp hr hvisited hexpands

theorem keptByDrain_joined (hw : c.WellFormed) (hc : c.Checked) (hp : c.Direct)
    (hr : c.RecallsBelow histories) (hj : c.RecallsJoined histories)
    (hresidual : c.AllAtomic residual) : KeptByDrain c histories residual seeds
      (fun queue e => Supported c seeds queue e ∧ Joined c residual queue e) where
  supported := And.left
  drop h := ⟨h.1.dropWhile hw, h.2.sublist (List.dropWhile_sublist _)⟩
  missing h :=
    ⟨(keptByDrain_supported hw hc hp hr residual).missing h.1, h.2.start hw hresidual h.1.atomic⟩
  expand := by
    rintro q queue e ⟨hsupported, hjoined⟩ hnew
    have hexpands := (expands_expand hw histories queue
      { e with visited := e.visited.insert q } (hsupported.leading q (by simp))).2
    have hmarked : Joined c residual (q :: queue) { e with visited := e.visited.insert q } :=
      ⟨hjoined.waiting, hjoined.settled, hjoined.between, hjoined.outside⟩
    exact ⟨(keptByDrain_supported hw hc hp hr residual).expand hsupported hnew,
      hmarked.expand hw hc hp hr hj hresidual hsupported.atomic hexpands⟩

theorem supported_expand (hw : c.WellFormed) (hc : c.Checked) (hp : c.Direct)
    (hr : c.RecallsBelow histories) (residual : StateSet)
    (hseeds : Supported c seeds seeds .empty) :
    Supported c seeds [] (c.expand histories seeds residual) ∧
      (c.expand histories seeds residual).missing c residual = [] :=
  (keptByDrain_supported hw hc hp hr residual).drain hw c.nodes.size seeds .empty hseeds (by omega)

theorem joined_expand (hw : c.WellFormed) (hc : c.Checked) (hp : c.Direct)
    (hr : c.RecallsBelow histories) (hj : c.RecallsJoined histories)
    (hresidual : c.AllAtomic residual) (hseeds : Supported c seeds seeds .empty)
    (hjoined : Joined c residual seeds .empty) :
    Joined c residual [] (c.expand histories seeds residual) :=
  ((keptByDrain_joined hw hc hp hr hj hresidual).drain hw c.nodes.size seeds .empty
    ⟨hseeds, hjoined⟩ (by omega)).1.2

/-- What was asked for is active afterwards, unless it is a pseudo-state. -/
theorem mem_closure_of_supported {e : Expansion}
    (h : Supported c seeds [] e) {x : Nat} (hx : x ∈ e.visited) (hordinary : c.isPseudo x = false) :
    ∃ f ∈ e.targets, c.Within f x := by
  rcases h.carried x hx with hx | ⟨y, hy, hbelow⟩
  · exact ⟨x, hx, .refl x⟩
  · rw [Chart.anchor_of_ordinary hordinary] at hbelow
    exact ⟨y, hy.resolve_left List.not_mem_nil, hbelow.within⟩

theorem targets_nonempty {e : Expansion} (h : Supported c seeds [] e) (hseeds : seeds ≠ []) :
    ∃ f, f ∈ e.targets := by
  obtain ⟨x, hx⟩ := List.exists_mem_of_ne_nil _ hseeds
  rcases h.carried x ((h.kept x hx).resolve_right List.not_mem_nil) with hx | ⟨y, hy, -⟩
  · exact ⟨x, hx⟩
  · exact ⟨y, hy.resolve_left List.not_mem_nil⟩

/-- What stays and what was reached have a legal closure. -/
theorem legal_of_expand (hw : c.WellFormed) {e : Expansion} (hresidual : c.AllAtomic residual)
    (hsupported : Supported c seeds [] e) (hjoined : Joined c residual [] e)
    (hmissing : e.missing c residual = []) :
    c.AllAtomic (residual.union e.targets) ∧
      c.Legal (c.closure (residual.union e.targets).members) := by
  have hatomic : c.AllAtomic (residual.union e.targets) := by
    intro s hs
    rcases StateSet.mem_union.1 hs with hs | hs
    · exact hresidual s hs
    · exact hsupported.atomic s hs
  refine ⟨hatomic, hw.legal_closure hatomic ?_ ?_⟩
  · intro a ha b hb
    exact hjoined.settled (StateSet.mem_union.1 ha) (StateSet.mem_union.1 hb)
  · intro p x hp hk hx
    obtain ⟨f, hf, hfp⟩ := hw.mem_closure.1 hp
    by_contra hnot
    -- A region that nothing covers would be missing, unless it was expanded and is covered.
    have hfree : ∀ g, g ∈ residual ∨ g ∈ e.targets → ¬ c.Within g x := by
      intro g hg hgx
      exact hnot (hw.mem_closure.2 ⟨g, StateSet.mem_union.2 hg, hgx⟩)
    have hvisited : x ∈ e.visited := by
      by_contra hv
      have hin := (mem_missing hw).2
        ⟨⟨p, f, StateSet.mem_union.1 hf, hfp, hk, hx⟩, hfree, hv⟩
      rw [hmissing] at hin
      cases hin
    obtain ⟨g, hg, hgx⟩ := mem_closure_of_supported hsupported hvisited
      (hw.mem_children.1 hx).2
    exact hfree g (.inr hg) hgx

end Drain

end Expansion

end Statechart
