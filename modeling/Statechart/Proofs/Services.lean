import Statechart.Proofs.Operations
import Statechart.Proofs.Planning
import Statechart.Proofs.Publishing

/-!
The accounts of services. A service that the host has started is cancelled later or still runs,
and it is the state that runs it which is active; none is cancelled that was not started, and none
is left when the session ends.
-/

namespace Statechart

/-- The entry notes that the host has started the service `id`. -/
def Entry.starts (id : String) : Entry → Bool
  | .startInvoke request reply => reply.refusal.isNone && decide (request.invokeId = id)
  | _ => false

/-- The entry notes that the host is asked to cancel the service `id`. -/
def Entry.cancels (id : String) : Entry → Bool
  | .cancelInvoke invokeId _ => decide (invokeId = id)
  | _ => false

theorem Entry.starts_of_isService {e : Entry} (h : e.isService = false) (id : String) :
    e.starts id = false := by
  cases e with
  | startInvoke request reply => cases h
  | _ => rfl

theorem Entry.cancels_of_isService {e : Entry} (h : e.isService = false) (id : String) :
    e.cancels id = false := by
  cases e with
  | cancelInvoke invokeId reply => cases h
  | _ => rfl

/-- The services of all states. -/
def servicesOf (invokes : SortedMap Nat (List String)) : List String :=
  invokes.entries.flatMap Prod.snd

theorem count_servicesOf_erase (invokes : SortedMap Nat (List String)) (s : Nat) (id : String) :
    (servicesOf invokes).count id =
      ((invokes.get? s).getD []).count id + (servicesOf (invokes.erase s)).count id := by
  cases h : invokes.get? s with
  | none =>
    have herase : invokes.erase s = invokes := by
      apply SortedMap.ext_get?
      intro key
      rw [SortedMap.get?_erase]
      split
      · next hkey => rw [hkey, h]
      · rfl
    simp [herase]
  | some ids =>
    have hperm := (SortedMap.entries_perm_erase h).flatMap_right Prod.snd
    rw [servicesOf, hperm.count_eq, List.flatMap_cons, List.count_append]
    rfl

theorem count_servicesOf_insert (invokes : SortedMap Nat (List String)) (s : Nat)
    (ids : List String) (id : String) :
    (servicesOf (invokes.insert s ids)).count id =
      ids.count id + (servicesOf (invokes.erase s)).count id := by
  have hperm := (invokes.entries_perm_insert s ids).flatMap_right Prod.snd
  rw [servicesOf, hperm.count_eq, List.flatMap_cons, List.count_append]
  rfl

/-- One more service of a state. -/
theorem count_servicesOf_keep (invokes : SortedMap Nat (List String)) (s : Nat)
    (invokeId id : String) :
    (servicesOf (invokes.insert s ((invokes.get? s).getD [] ++ [invokeId]))).count id =
      (servicesOf invokes).count id + [invokeId].count id := by
  rw [count_servicesOf_insert, count_servicesOf_erase invokes s, List.count_append]
  omega

variable {σ : Type}

/-- Of the services that have been started those that have not been cancelled run, or are `due` to
be cancelled; and never has one been cancelled more often than it was started. -/
structure Accounted (r : Run σ) (due : List String) : Prop where
  balance : ∀ id, r.journal.countP (Entry.starts id) =
    r.journal.countP (Entry.cancels id) +
      ((servicesOf r.session.invokes).count id + due.count id)
  ahead : ∀ id earlier, earlier <:+ r.journal →
    earlier.countP (Entry.cancels id) ≤ earlier.countP (Entry.starts id)

namespace Accounted

variable {due : List String}

theorem congr {r s : Run σ} (h : Accounted r due) (hinvokes : s.session.invokes = r.session.invokes)
    (hjournal : s.journal = r.journal) : Accounted s due where
  balance := by rw [hinvokes, hjournal]; exact h.balance
  ahead := by rw [hjournal]; exact h.ahead

theorem note {r : Run σ} (h : Accounted r due) {e : Entry}
    (he : ∀ id, e.starts id = false ∧ e.cancels id = false) : Accounted (r.note e) due where
  balance id := by
    simp only [Run.note, List.countP_cons, he id]
    exact h.balance id
  ahead id earlier hearlier := by
    rcases List.suffix_cons_iff.1 hearlier with rfl | hearlier
    · simp only [List.countP_cons, he id]
      exact h.ahead id _ (List.suffix_refl _)
    · exact h.ahead id earlier hearlier

theorem performs {writable : String → Prop} {r s : Run σ} (h : Accounted r due)
    (hperforms : Performs writable r s) : Accounted s due := by
  induction hperforms with
  | trans _ _ hrs hst => exact hst (hrs h)
  | note r _ _ hservice =>
    exact h.note fun id => ⟨Entry.starts_of_isService hservice id,
      Entry.cancels_of_isService hservice id⟩
  | @raise r e _ =>
    have hqueued : Accounted (r.mapSession (·.raise e)) due := h.congr rfl rfl
    exact hqueued.note (e := .raised e) fun _ => ⟨rfl, rfl⟩
  | _ => exact h.congr rfl rfl

theorem marks {known : Nat → Prop} {r s : Run σ} (h : Accounted r due)
    (hmarks : Marks known r s) : Accounted s due := by
  induction hmarks with
  | trans _ _ hrs hst => exact hst (hrs h)
  | raiseDone r id =>
    have hqueued : Accounted (r.mapSession (·.raise (.plain (Event.doneName id) .change))) due :=
      h.congr rfl rfl
    exact hqueued.note (e := .raised _) fun _ => ⟨rfl, rfl⟩
  | _ => exact h.congr rfl rfl

theorem reports {r s : Run σ} (h : Accounted r due) (hreports : Reports r s) : Accounted s due := by
  obtain ⟨reports, rfl⟩ := hreports
  induction reports with
  | nil => exact h
  | cons report rest ih => exact ih.note (e := .report report) fun _ => ⟨rfl, rfl⟩

/-- The host has started a service, and it runs. -/
theorem started {r : Run σ} (h : Accounted r due) {request : InvokeRequest}
    {reply : Reply InvokeError} (hreply : reply.refusal = none) (s : Nat) :
    Accounted ((r.note (.startInvoke request reply)).keepInvoke s request.invokeId) due := by
  have hstarts : ∀ id, (Entry.startInvoke request reply).starts id =
      decide (request.invokeId = id) := by
    intro id
    simp [Entry.starts, hreply]
  refine ⟨fun id => ?_, fun id earlier hearlier => ?_⟩
  · have hbalance := h.balance id
    simp only [Run.keepInvoke, Run.note, Run.mapSession, List.countP_cons, hstarts,
      count_servicesOf_keep, Entry.cancels]
    rw [hbalance]
    by_cases hid : request.invokeId = id
    · simp [hid]
      omega
    · simp [hid]
  · rcases List.suffix_cons_iff.1 hearlier with rfl | hearlier
    · have hle := h.ahead id r.journal (List.suffix_refl _)
      simp only [List.countP_cons, Entry.cancels]
      exact Nat.le_trans hle (Nat.le_add_right _ _)
    · exact h.ahead id earlier hearlier

/-- A service that is due has been cancelled. -/
theorem cancelled {r : Run σ} {invokeId : String} (h : Accounted r (invokeId :: due))
    (reply : Reply InvokeError) : Accounted (r.note (.cancelInvoke invokeId reply)) due := by
  have hcancels : ∀ id, (Entry.cancelInvoke invokeId reply).cancels id =
      decide (invokeId = id) := fun _ => rfl
  refine ⟨fun id => ?_, fun id earlier hearlier => ?_⟩
  · have hbalance := h.balance id
    simp only [Run.note, List.countP_cons, hcancels, Entry.starts, Bool.false_eq_true, if_false]
    rw [hbalance, List.count_cons]
    by_cases hid : invokeId = id
    · simp [hid]
      omega
    · simp [hid]
  · rcases List.suffix_cons_iff.1 hearlier with rfl | hearlier
    · have hbalance := h.balance id
      have hle := h.ahead id r.journal (List.suffix_refl _)
      rw [List.count_cons] at hbalance
      simp only [List.countP_cons, hcancels, Entry.starts]
      by_cases hid : invokeId = id
      · simp [hid] at hbalance ⊢
        omega
      · simpa [hid] using hle
    · exact h.ahead id earlier hearlier

end Accounted

/-- The states that run services are active. -/
def Owned (r : Run σ) : Prop :=
  ∀ s, (r.session.invokes.get? s).isSome → s ∈ r.session.configuration.active

theorem Owned.congr {r s : Run σ} (h : Owned r) (hinvokes : s.session.invokes = r.session.invokes)
    (hconf : s.session.configuration = r.session.configuration) : Owned s := by
  unfold Owned
  rw [hinvokes, hconf]
  exact h

namespace Interpreter

variable {m : Interpreter σ}

theorem accounted_startInvoke {s : Nat} {r : Run σ} {due : List String} (h : Accounted r due)
    (i : Invoke) : Accounted (m.startInvoke s i r) due := by
  obtain ⟨t, request, reply, hask, ⟨hreply, heq⟩ | ⟨hreply, hrefused⟩⟩ := m.startInvoke_spec s i r
  · rw [heq]
    exact (h.performs hask).started hreply s
  · have hnoted : Accounted (t.note (.startInvoke request reply)) due := by
      refine (h.performs hask).note fun id => ⟨?_, rfl⟩
      simp [Entry.starts, hreply]
    exact hnoted.performs hrefused

theorem owned_startInvoke {s : Nat} {r : Run σ} (h : Owned r)
    (hs : s ∈ r.session.configuration.active) (i : Invoke) : Owned (m.startInvoke s i r) := by
  have hacts := m.acts_startInvoke hs i
  obtain ⟨t, request, reply, hask, ⟨-, heq⟩ | ⟨-, hrefused⟩⟩ := m.startInvoke_spec s i r
  · intro x hx
    rw [hacts.configuration]
    rw [heq] at hx
    simp only [Run.keepInvoke, Run.mapSession, Run.note, SortedMap.get?_insert] at hx
    split at hx
    · next hxs =>
      rw [hxs]
      exact hs
    · rw [hask.invokes] at hx
      exact h x hx
  · exact h.congr (hrefused.invokes.trans hask.invokes) hacts.configuration

theorem accounted_startInvokes {r : Run σ} (h : Accounted r [] ∧ Owned r) :
    Accounted (m.startInvokes r) [] ∧ Owned (m.startInvokes r) := by
  unfold startInvokes
  refine List.foldlRecOn (motive := fun r : Run σ => Accounted r [] ∧ Owned r) _ _
    ⟨h.1.congr rfl rfl, h.2.congr rfl rfl⟩ ?_
  intro r hr s _
  split
  · next hs =>
    refine (List.foldlRecOn (motive := fun r : Run σ =>
      (Accounted r [] ∧ Owned r) ∧ s ∈ r.session.configuration.active) _ _ ⟨hr, hs⟩ ?_).1
    rintro r ⟨⟨haccounted, howned⟩, hs⟩ i _
    refine ⟨⟨accounted_startInvoke haccounted i, owned_startInvoke howned hs i⟩, ?_⟩
    rw [(m.acts_startInvoke hs i).configuration]
    exact hs
  · exact hr

theorem invokes_cancelInvoke (s : Nat) (invokeId : String) (r : Run σ) :
    (m.cancelInvoke s invokeId r).session.invokes = r.session.invokes := by
  obtain ⟨t, reply, hask, hanswered⟩ := m.cancelInvoke_spec s invokeId r
  exact hanswered.invokes.trans hask.invokes

theorem get?_invokes_cancelInvokes (s : Nat) (r : Run σ) (x : Nat) :
    (m.cancelInvokes s r).session.invokes.get? x =
      if x = s then none else r.session.invokes.get? x := by
  unfold cancelInvokes
  split
  · next hnone =>
    split
    · next hx => rw [hx, hnone]
    · rfl
  · rw [← SortedMap.get?_erase]
    refine List.foldlRecOn (motive := fun t : Run σ =>
      t.session.invokes.get? x = (r.session.invokes.erase s).get? x) _ _ rfl ?_
    intro t ht invokeId _
    rw [invokes_cancelInvoke, ht]

theorem accounted_cancelInvokes {r : Run σ} (h : Accounted r []) (s : Nat) :
    Accounted (m.cancelInvokes s r) [] := by
  -- All services of the state are due at once, and then cancelled one after the other.
  have hall : ∀ (ids : List String) {r : Run σ}, Accounted r ids →
      Accounted (ids.foldl (fun r invokeId => m.cancelInvoke s invokeId r) r) [] := by
    intro ids
    induction ids with
    | nil => exact fun h => h
    | cons invokeId rest ih =>
      intro r h
      obtain ⟨t, reply, hask, hanswered⟩ := m.cancelInvoke_spec s invokeId r
      exact ih (((h.performs hask).cancelled reply).performs hanswered)
  unfold cancelInvokes
  split
  · exact h
  · next ids hids =>
    refine hall ids ⟨fun id => ?_, h.ahead⟩
    have hbalance := h.balance id
    rw [count_servicesOf_erase r.session.invokes s, hids] at hbalance
    simp only [Run.mapSession]
    simpa [Nat.add_comm] using hbalance

theorem accounted_cancelAllInvokes {r : Run σ} (h : Accounted r []) :
    Accounted (m.cancelAllInvokes r) [] :=
  List.foldlRecOn (motive := fun r : Run σ => Accounted r []) _ _ h
    fun _ h s _ => accounted_cancelInvokes h s

/-- Where each step of a fold ends the services of a state, those of other states are left. -/
theorem get?_invokes_foldl {f : Run σ → Nat → Run σ}
    (hf : ∀ r s x, (f r s).session.invokes.get? x =
      if x = s then none else r.session.invokes.get? x) (states : List Nat) (r : Run σ) (x : Nat) :
    (states.foldl f r).session.invokes.get? x =
      if x ∈ states then none else r.session.invokes.get? x := by
  induction states generalizing r with
  | nil => simp
  | cons s rest ih =>
    rw [List.foldl_cons, ih, hf]
    by_cases hx : x = s <;> by_cases hrest : x ∈ rest <;> simp [hx, hrest]

/-- No service is left when all are cancelled. -/
theorem invokes_cancelAllInvokes (r : Run σ) : (m.cancelAllInvokes r).session.invokes = ∅ := by
  apply SortedMap.ext_get?
  intro x
  rw [cancelAllInvokes, get?_invokes_foldl (fun r s => get?_invokes_cancelInvokes s r),
    SortedMap.get?_empty]
  split
  · rfl
  · next hx =>
    rw [SortedMap.mem_keys_iff] at hx
    simpa using hx

theorem accounted_leave {r : Run σ} (h : Accounted r []) (s : Nat) :
    Accounted (m.leave s r) [] := by
  obtain ⟨t, hcontent, hmarks⟩ : ∃ t, Performs Unreserved r t ∧
      Marks (fun _ => True) (m.cancelInvokes s t) (m.leave s r) := m.parts_leave s r
  exact (accounted_cancelInvokes (h.performs hcontent) s).marks hmarks

theorem get?_invokes_leave (s : Nat) (r : Run σ) (x : Nat) :
    (m.leave s r).session.invokes.get? x =
      if x = s then none else r.session.invokes.get? x := by
  obtain ⟨t, hcontent, hmarks⟩ : ∃ t, Performs Unreserved r t ∧
      Marks (fun _ => True) (m.cancelInvokes s t) (m.leave s r) := m.parts_leave s r
  rw [hmarks.invokes, get?_invokes_cancelInvokes, hcontent.invokes]

/-- Entering a state neither starts nor cancels a service. -/
theorem accounted_enter {r : Run σ} (h : Accounted r []) (step : Step) (s : Nat) :
    Accounted (m.enter step s r) [] ∧
      (m.enter step s r).session.invokes = r.session.invokes := by
  obtain ⟨t, hcontent, hmarks⟩ : ∃ t, Performs Unreserved (r.mapSession (·.withdraw s)) t ∧
      Marks (fun _ => True) t (m.enter step s r) := m.parts_enter (fun _ => trivial) step trivial r
  have hwithdrawn : Accounted (r.mapSession (·.withdraw s)) [] := h.congr rfl rfl
  exact ⟨(hwithdrawn.performs hcontent).marks hmarks, hmarks.invokes.trans hcontent.invokes⟩

/-- The services of the states that are left are cancelled, and no others. -/
theorem accounted_runContent {r : Run σ} (h : Accounted r []) (step : Step) :
    Accounted (m.runContent step r) [] ∧
      ∀ x, (m.runContent step r).session.invokes.get? x =
        if x ∈ step.exitList then none else r.session.invokes.get? x := by
  have hleft : Accounted (step.exitList.foldl (fun r s => m.leave s r) r) [] :=
    List.foldlRecOn (motive := fun r : Run σ => Accounted r []) _ _ h
      fun _ h s _ => accounted_leave h s
  have hinvokes := get?_invokes_foldl (fun r s => m.get?_invokes_leave s r) step.exitList r
  have hfired : Performs Unreserved (step.exitList.foldl (fun r s => m.leave s r) r)
      (step.transitions.foldl (fun r t => m.fire t r)
        (step.exitList.foldl (fun r s => m.leave s r) r)) :=
    .foldl (fun r t _ => m.performs_fire t r) _
  have hentered := List.foldlRecOn
    (motive := fun s : Run σ => Accounted s [] ∧
      ∀ x, s.session.invokes.get? x =
        if x ∈ step.exitList then none else r.session.invokes.get? x)
    step.entryList (fun r s => m.enter step s r)
    ⟨hleft.performs hfired, fun x => by rw [hfired.invokes, hinvokes]⟩
    (fun t ⟨haccounted, ht⟩ s _ =>
      ⟨(accounted_enter haccounted step s).1,
        fun x => by rw [(accounted_enter haccounted step s).2, ht]⟩)
  exact hentered

/-- What is true of services between the steps of a macrostep. -/
structure InService (r : Run σ) : Prop where
  accounted : Accounted r []
  owned : Owned r
  running : r.session.running = true

/-- And between operations. -/
structure Served (r : Run σ) : Prop where
  accounted : Accounted r []
  owned : Owned r
  ended : r.session.running = false → r.session.invokes = ∅

theorem InService.served {r : Run σ} (h : InService r) : Served r :=
  ⟨h.accounted, h.owned, fun hstopped => absurd h.running (by simp [hstopped])⟩

theorem InService.performs {writable : String → Prop} {r s : Run σ} (h : InService r)
    (hperforms : Performs writable r s) : InService s where
  accounted := h.accounted.performs hperforms
  owned := h.owned.congr hperforms.invokes hperforms.acts.configuration
  running := hperforms.acts.running.trans h.running

/-- Ends the services of a session, whatever state it is in. -/
theorem served_stop {r : Run σ} (h : Accounted r []) : Served (m.stop r) := by
  have hnone : (m.stop r).session.invokes = ∅ := invokes_cancelAllInvokes r
  refine ⟨(accounted_cancelAllInvokes h).congr rfl rfl, ?_, fun _ => hnone⟩
  intro s hs
  rw [hnone] at hs
  cases hs

theorem carryOut_inService {r : Run σ} (h : InService r) (step : Step) :
    Leaves InService (fun _ r => Accounted r []) (m.carryOut step r) := by
  obtain ⟨haccounted, hinvokes⟩ := m.accounted_runContent h.accounted step
  have hcontent : Evolves (fun _ => True) r (m.runContent step r) :=
    m.evolves_runContent (fun _ => trivial) (fun _ _ => trivial) r
  unfold carryOut moveConfiguration
  split
  · exact haccounted.congr rfl rfl
  · next conf hmove =>
    refine ⟨haccounted.congr rfl rfl, ?_, hcontent.running.trans h.running⟩
    intro x hx
    change x ∈ conf.active
    rw [Configuration.mem_move hmove, hcontent.configuration]
    simp only [Run.mapSession, Session.publish, hinvokes] at hx
    split at hx
    · cases hx
    · next hexit => exact .inl ⟨h.owned x hx, hexit⟩

theorem InService.reports {r s : Run σ} (h : InService r) (hreports : Reports r s) :
    InService s := by
  have hsession := hreports.notes.session
  refine ⟨h.accounted.reports hreports, ?_, ?_⟩
  · exact h.owned.congr (by rw [hsession]) (by rw [hsession])
  · rw [hsession]
    exact h.running

theorem microstep_inService {r : Run σ} (h : InService r) (event : Option Event) :
    Leaves InService (fun _ r => Accounted r []) (m.microstep event r) := by
  have hbound : InService (r.mapSession (·.bindEvent event)) :=
    ⟨h.accounted.congr rfl rfl, h.owned.congr rfl rfl, h.running⟩
  have hselected : InService (m.selectFor event r).2 :=
    hbound.performs (m.performs_select _ _ _ : Performs Unreserved _ _)
  refine leaves_microstep event hselected ?_ ?_
  · intro s t e hs hreports
    exact (hs.reports hreports).accounted
  · intro ts s t step _ hs hreports
    have happroved := hs.reports hreports
    have hrecorded : InService (m.recordFor (m.planFor ts s) t) :=
      ⟨happroved.accounted.congr rfl rfl, happroved.owned.congr rfl rfl, happroved.running⟩
    exact carryOut_inService hrecorded _

theorem initialStep_inService {r : Run σ} (h : InService r) :
    Leaves InService (fun _ r => Accounted r []) (m.initialStep r) :=
  leaves_initialStep (fun hreports => (h.reports hreports).accounted)
    (fun hreports => carryOut_inService (h.reports hreports) _)
    (fun hreports => carryOut_inService (h.reports hreports) _)

/-- A reset ends all services before it clears the session. -/
theorem accounted_reset {r : Run σ} (h : Accounted r []) :
    Accounted (m.reset r) [] ∧ (m.reset r).session.invokes = ∅ := by
  have hcleared : Accounted (m.clear r) [] :=
    (accounted_cancelAllInvokes h).congr (invokes_cancelAllInvokes r).symm rfl
  have hdata := m.performs_initializeData (m.clear r)
  exact ⟨(hcleared.performs hdata).congr rfl rfl, hdata.invokes⟩

theorem owned_of_none {r : Run σ} (h : r.session.invokes = ∅) : Owned r := by
  intro s hs
  rw [h] at hs
  cases hs

/-- The accounts are kept through every macrostep and all operations. -/
theorem lasts_service (m : Interpreter σ) :
    m.Lasts InService (fun _ r => Accounted r []) Served where
  microstep event h := microstep_inService h event
  take {r s e} h htake := by
    unfold takeInternal at htake
    split at htake
    · cases htake
    · next first rest _ =>
      obtain ⟨rfl, rfl⟩ := Prod.mk.inj (Option.some.inj htake)
      have hqueue : Accounted (r.mapSession fun session => { session with internal := rest }) [] :=
        h.accounted.congr rfl rfl
      exact ⟨hqueue.note (e := .taken first) fun _ => ⟨rfl, rfl⟩, h.owned.congr rfl rfl, h.running⟩
  startInvokes {r} h := by
    obtain ⟨haccounted, howned⟩ := m.accounted_startInvokes ⟨h.accounted, h.owned⟩
    exact ⟨haccounted, howned, (m.acts_startInvokes r).running.trans h.running⟩
  settled {r} h := by
    have hpublished : Accounted (r.mapSession Session.publishPending) [] :=
      h.accounted.congr rfl rfl
    unfold settled
    dsimp only
    split
    · exact served_stop hpublished
    · exact ⟨hpublished, h.owned.congr rfl rfl, h.served.ended⟩
  exhausted {r} h := by
    have hreported : Performs Unreserved r (r.report .loopLimit ("macrostep exceeded " ++
        toString m.config.maxMicrosteps ++ " microsteps, stopping") none) :=
      .report r (by simp) _ _
    have hstopped := m.served_stop (h.accounted.performs hreported)
    exact ⟨hstopped.accounted.congr rfl rfl, hstopped.owned.congr rfl rfl, hstopped.ended⟩
  fail h := served_stop h
  start {r} h := by
    obtain ⟨haccounted, hnone⟩ := m.accounted_reset h.accounted
    exact initialStep_inService ⟨haccounted.congr rfl rfl, owned_of_none hnone, rfl⟩
  running h hrunning := ⟨h.accounted, h.owned, hrunning⟩
  reset {r} h := by
    obtain ⟨haccounted, hnone⟩ := m.accounted_reset h.accounted
    exact ⟨haccounted, owned_of_none hnone, fun _ => hnone⟩
  stop h := served_stop h.accounted

theorem served_new (id : SessionId) (world : σ) : Served (.new id world) where
  accounted := by
    refine ⟨fun _ => rfl, fun id earlier hearlier => ?_⟩
    rw [List.suffix_nil.1 hearlier]
    exact Nat.le_refl 0
  owned := owned_of_none rfl
  ended _ := rfl

/-- After every operation each service has been started as often as it has been cancelled and is
still running, together; never before has one been cancelled more often than it was started. The
states that run services are active, and a session that does not run has none. The host may
refuse what it likes. -/
theorem services_accounted (m : Interpreter σ) (id : SessionId) (world : σ)
    (operations : List Operation) :
    let r := m.operateAll operations (Run.new id world)
    (∀ service, r.journal.countP (Entry.starts service) =
        r.journal.countP (Entry.cancels service) +
          (servicesOf r.session.invokes).count service) ∧
      (∀ service earlier, earlier <:+ r.journal →
        earlier.countP (Entry.cancels service) ≤ earlier.countP (Entry.starts service)) ∧
      (∀ s services, r.session.invokes.get? s = some services →
        s ∈ r.session.configuration.active) ∧
      (r.session.running = false → r.session.invokes = ∅) := by
  intro r
  have hserved : Served r := m.lasts_service.operateAll operations (served_new id world)
  refine ⟨fun service => by simpa using hserved.accounted.balance service,
    hserved.accounted.ahead, ?_, hserved.ended⟩
  intro s services hs
  exact hserved.owned s (by rw [hs]; rfl)

/-- The service that refuses to be cancelled is started, and cancelled once when the session is
stopped. -/
theorem services_accounted_stubborn :
    let r := stubborn.operateAll [.go, .stop] (Run.new secondId ())
    r.journal.countP (Entry.starts "alarm") = 1 ∧ r.session.invokes = ∅ ∧
      r.journal.countP (Entry.cancels "alarm") = 1 := by
  intro r
  obtain ⟨hbalance, -, -, hended⟩ := services_accounted stubborn secondId () [.go, .stop]
  have hstarts : r.journal.countP (Entry.starts "alarm") = 1 := by decide +kernel
  have hnone : r.session.invokes = ∅ := hended rfl
  refine ⟨hstarts, hnone, ?_⟩
  have halarm := hbalance "alarm"
  change r.journal.countP (Entry.starts "alarm") = r.journal.countP (Entry.cancels "alarm") +
    (servicesOf r.session.invokes).count "alarm" at halarm
  rw [hnone, hstarts] at halarm
  exact halarm.symm

end Interpreter

end Statechart
