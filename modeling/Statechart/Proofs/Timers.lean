import Mathlib.Data.List.Induction
import Statechart.Host.Loopback
import Statechart.Proofs.Collections

/-!
Delayed sends and their timers. A loopback host keeps one timer for each send id, so a send that
waits can be taken back until its id is used for another delayed send. What is left waiting after
any calls can be read off the calls: for each delayed send it matters which call with its id comes
next. As long as an id is used again only after it was cancelled, the timers that run are the
delayed sends that have not been cancelled, and a cancel stops all sends with its id; otherwise not.
-/

namespace Statechart.Loopback

/-- What can be asked of a loopback host. -/
inductive Call where
  | send (request : SendRequest)
  | cancel (sendId : String)

namespace Call

def answer (l : Loopback) : Call → Loopback
  | send request => (l.send request).2
  | cancel sendId => l.cancel sendId

/-- The send that the call leaves waiting: one that is accepted and has a delay. -/
def delayed? : Call → Option SendRequest
  | send request => if refusal? request = none ∧ request.delay ≠ 0 then some request else none
  | cancel _ => none

def cancels (sendId : String) : Call → Bool
  | cancel id => decide (id = sendId)
  | send _ => false

/-- The call has to do with the timer under `sendId`. -/
def concerns (sendId : String) (call : Call) : Bool :=
  call.cancels sendId || call.delayed?.any (fun request => decide (request.sendId = sendId))

theorem concerns_of_cancels {sendId : String} {call : Call} (h : call.cancels sendId = true) :
    call.concerns sendId = true := by
  simp [concerns, h]

theorem concerns_of_delayed {call : Call} {request : SendRequest}
    (h : call.delayed? = some request) (sendId : String) :
    call.concerns sendId = decide (request.sendId = sendId) := by
  cases call with
  | send _ => simp [concerns, cancels, h]
  | cancel _ => cases h

end Call

/-- A delayed send with the calls that have been made since. -/
structure Delayed where
  request : SendRequest
  later : List Call

namespace Delayed

/-- The next call that has to do with the id of the send. -/
def next? (d : Delayed) : Option Call :=
  d.later.find? (Call.concerns d.request.sendId)

/-- The id of the send has not been used since. -/
def isLast (d : Delayed) : Bool :=
  d.next?.isNone

/-- The send was cancelled before its id was used for another. -/
def isStopped (d : Delayed) : Bool :=
  d.next?.any (Call.cancels d.request.sendId)

/-- The send has not been followed by a cancel of its id. -/
def isOutstanding (d : Delayed) : Bool :=
  !d.later.any (Call.cancels d.request.sendId)

/-- The send as it waits. -/
def waiting (d : Delayed) : Waiting :=
  ⟨d.request.sendId, d.request.toEvent, d.isStopped⟩

/-- The send after one more call. -/
def past (call : Call) (d : Delayed) : Delayed :=
  { d with later := d.later ++ [call] }

end Delayed

/-- The delayed sends among `calls`, oldest first. -/
def delayed : List Call → List Delayed
  | [] => []
  | call :: rest => (call.delayed?.map (fun request => ⟨request, rest⟩)).toList ++ delayed rest

/-- The delayed sends among `calls` that have not been followed by a cancel of their id. -/
def outstanding (calls : List Call) : List Delayed :=
  (delayed calls).filter Delayed.isOutstanding

/-- A new loopback host after `calls`, none of whose delays has run out. -/
def after (calls : List Call) : Loopback :=
  calls.foldl Call.answer .empty

/-- A send id is used for another delayed send only after it was cancelled. -/
def Unshared (calls : List Call) : Prop :=
  ∀ d ∈ delayed calls, ∀ call, d.next? = some call → call.cancels d.request.sendId = true

/-- The host accounts for the delayed sends among `calls`: of those that have not been cancelled
every one has a timer and will be delivered, and no other; and a cancel stops every one with its
id. -/
structure Accounted (calls : List Call) : Prop where
  pending : (after calls).pendingTimers = (outstanding calls).length
  undelivered : (after calls).undelivered = (outstanding calls).map (·.request.toEvent)
  cancel : ∀ sendId, ∀ w ∈ ((after calls).cancel sendId).waiting,
    w.sendId = sendId → w.cancelled = true

namespace Delayed

variable {d : Delayed} {call : Call}

theorem next?_past (d : Delayed) (call : Call) :
    (d.past call).next? =
      d.next?.or (if call.concerns d.request.sendId then some call else none) := by
  cases hconcerns : call.concerns d.request.sendId <;>
    simp [next?, past, List.find?_append, hconcerns]

theorem isLast_past (d : Delayed) (call : Call) :
    (d.past call).isLast = (d.isLast && !call.concerns d.request.sendId) := by
  cases hnext : d.next? with
  | some c => simp [isLast, next?_past, hnext]
  | none =>
    cases hconcerns : call.concerns d.request.sendId <;>
      simp [isLast, next?_past, hnext, hconcerns]

theorem isStopped_past (d : Delayed) (call : Call) :
    (d.past call).isStopped = (d.isStopped || d.isLast && call.cancels d.request.sendId) := by
  have hid : (d.past call).request.sendId = d.request.sendId := rfl
  cases hnext : d.next? with
  | some c => simp [isStopped, isLast, next?_past, hid, hnext]
  | none =>
    cases hcancels : call.cancels d.request.sendId with
    | true =>
      have hconcerns := Call.concerns_of_cancels hcancels
      simp [isStopped, isLast, next?_past, hid, hnext, hconcerns, hcancels]
    | false =>
      cases hconcerns : call.concerns d.request.sendId <;>
        simp [isStopped, isLast, next?_past, hid, hnext, hconcerns, hcancels]

theorem waiting_past (d : Delayed) (call : Call) :
    (d.past call).waiting = { d.waiting with
      cancelled := d.isStopped || d.isLast && call.cancels d.request.sendId } := by
  rw [← isStopped_past]
  rfl

/-- Another send does not change what waits, though it may take over the timer. -/
theorem waiting_past_send (d : Delayed) (request : SendRequest) :
    (d.past (.send request)).waiting = d.waiting := by
  rw [waiting_past]
  simp [Call.cancels, waiting]

end Delayed

theorem delayed_append_singleton (calls : List Call) (call : Call) :
    delayed (calls ++ [call]) =
      (delayed calls).map (Delayed.past call) ++
        (call.delayed?.map (fun request => Delayed.mk request [])).toList := by
  induction calls with
  | nil => simp [delayed]
  | cons first rest ih =>
    rw [List.cons_append, delayed, ih, delayed]
    cases first.delayed? <;> simp [Delayed.past]

theorem mem_delayed {calls : List Call} {d : Delayed} :
    d ∈ delayed calls ↔
      ∃ earlier call, calls = earlier ++ call :: d.later ∧ call.delayed? = some d.request := by
  induction calls with
  | nil => simp [delayed]
  | cons first rest ih =>
    rw [delayed, List.mem_append, Option.mem_toList, Option.map_eq_some_iff, ih]
    constructor
    · rintro (⟨request, hrequest, rfl⟩ | ⟨earlier, call, rfl, hcall⟩)
      · exact ⟨[], first, rfl, hrequest⟩
      · exact ⟨first :: earlier, call, rfl, hcall⟩
    · rintro ⟨earlier, call, hcalls, hcall⟩
      cases earlier with
      | nil =>
        obtain ⟨rfl, rfl⟩ := List.cons.inj hcalls
        exact .inl ⟨d.request, hcall, rfl⟩
      | cons _ earlier =>
        obtain ⟨rfl, rfl⟩ := List.cons.inj hcalls
        exact .inr ⟨earlier, call, rfl, hcall⟩

theorem after_append_singleton (calls : List Call) (call : Call) :
    after (calls ++ [call]) = call.answer (after calls) := by
  simp [after]

namespace Call

variable {l : Loopback}

theorem answer_of_delayed {call : Call} {request : SendRequest}
    (h : call.delayed? = some request) :
    call.answer l = ⟨l.waiting ++ [⟨request.sendId, request.toEvent, false⟩],
      l.timers.insert request.sendId l.waiting.length⟩ := by
  cases call with
  | cancel _ => cases h
  | send r =>
    rw [delayed?] at h
    split at h
    · next haccepted =>
      obtain rfl := Option.some.inj h
      simp [answer, Loopback.send, haccepted.1, haccepted.2]
    · cases h

/-- A send that is refused or has no delay leaves nothing behind. -/
theorem answer_of_not_delayed {request : SendRequest} (h : (send request).delayed? = none) :
    (send request).answer l = l := by
  rw [delayed?] at h
  simp only [answer, Loopback.send]
  split
  · rfl
  · next haccepted =>
    split
    · rfl
    · next hdelay => simp [haccepted, hdelay] at h

end Call

/-- The host holds the delayed sends `sends`, and the timers are those of the sends whose ids have
not been used since. -/
structure Shows (l : Loopback) (sends : List Delayed) : Prop where
  waiting : l.waiting = sends.map Delayed.waiting
  timers : ∀ sendId position, l.timers.get? sendId = some position ↔
    ∃ d, sends[position]? = some d ∧ d.request.sendId = sendId ∧ d.isLast = true

/-- After one more call a send is the last one with its id if it was so before and the call does
not concern it. -/
theorem exists_last_past (sends : List Delayed) (call : Call) (sendId : String) (position : Nat) :
    (∃ d, (sends.map (Delayed.past call))[position]? = some d ∧ d.request.sendId = sendId ∧
        d.isLast = true) ↔
      (∃ d, sends[position]? = some d ∧ d.request.sendId = sendId ∧ d.isLast = true) ∧
        call.concerns sendId = false := by
  simp only [List.getElem?_map, Option.map_eq_some_iff]
  constructor
  · rintro ⟨_, ⟨d, hd, rfl⟩, rfl, hlast⟩
    rw [Delayed.isLast_past, Bool.and_eq_true, Bool.not_eq_true'] at hlast
    exact ⟨⟨d, hd, rfl, hlast.1⟩, hlast.2⟩
  · rintro ⟨⟨d, hd, rfl, hlast⟩, hconcerns⟩
    exact ⟨d.past call, ⟨d, hd, rfl⟩, rfl, by simp [Delayed.isLast_past, hlast, hconcerns]⟩

namespace Shows

variable {l : Loopback} {sends : List Delayed}

theorem length (h : Shows l sends) : l.waiting.length = sends.length := by
  rw [h.waiting, List.length_map]

/-- A send that is not left waiting changes nothing. -/
theorem passed (h : Shows l sends) {request : SendRequest}
    (hnone : (Call.send request).delayed? = none) :
    Shows l (sends.map (Delayed.past (.send request))) where
  waiting := by
    rw [h.waiting, List.map_map]
    exact List.map_congr_left fun d _ => (d.waiting_past_send request).symm
  timers sendId position := by
    rw [h.timers, exists_last_past]
    simp [Call.concerns, Call.cancels, hnone]

/-- A delayed send takes the timer of its id over. -/
theorem delayed (h : Shows l sends) {request : SendRequest}
    (hsome : (Call.send request).delayed? = some request) :
    Shows ⟨l.waiting ++ [⟨request.sendId, request.toEvent, false⟩],
        l.timers.insert request.sendId l.waiting.length⟩
      (sends.map (Delayed.past (.send request)) ++ [⟨request, []⟩]) where
  waiting := by
    have hpast : (sends.map (Delayed.past (.send request))).map Delayed.waiting = l.waiting := by
      rw [h.waiting, List.map_map]
      exact List.map_congr_left fun d _ => d.waiting_past_send request
    rw [List.map_append, hpast]
    rfl
  timers sendId position := by
    have hpast := exists_last_past sends (.send request) sendId position
    rw [Call.concerns_of_delayed hsome, ← h.timers] at hpast
    rw [SortedMap.get?_insert, h.length]
    rcases Nat.lt_trichotomy position sends.length with hlt | rfl | hgt
    · rw [List.getElem?_append_left (by simpa using hlt), hpast]
      by_cases hid : sendId = request.sendId
      · simp [hid]
        omega
      · simp [hid, Ne.symm hid]
    · have hnone : l.timers.get? sendId ≠ some sends.length := by
        rw [Ne, h.timers]
        simp
      rw [List.getElem?_append_right (by simp)]
      by_cases hid : sendId = request.sendId
      · simp [hid, Delayed.isLast, Delayed.next?]
      · simp [hid, Ne.symm hid, hnone]
    · have hnone : l.timers.get? sendId ≠ some position := by
        rw [Ne, h.timers, List.getElem?_eq_none hgt.le]
        simp
      rw [List.getElem?_eq_none (by simp; omega)]
      by_cases hid : sendId = request.sendId
      · simp [hid]
        omega
      · simp [hid, hnone]

/-- A send has the timer of its id if and only if the id has not been used since. -/
theorem isLast_iff (h : Shows l sends) {position : Nat} {d : Delayed}
    (hd : sends[position]? = some d) :
    d.isLast = true ↔ l.timers.get? d.request.sendId = some position := by
  rw [h.timers]
  constructor
  · intro hlast
    exact ⟨d, hd, rfl, hlast⟩
  · rintro ⟨d', hd', -, hlast⟩
    rw [hd] at hd'
    obtain rfl := Option.some.inj hd'
    exact hlast

/-- A cancel stops the send whose timer runs under the id. -/
theorem waiting_cancel (h : Shows l sends) (sendId : String) :
    (l.cancel sendId).waiting =
      (sends.map (Delayed.past (.cancel sendId))).map Delayed.waiting := by
  apply List.ext_getElem?
  intro position
  have hstops : ∀ d, sends[position]? = some d →
      (d.isLast && (Call.cancel sendId).cancels d.request.sendId) =
        decide (l.timers.get? sendId = some position) := by
    intro d hd
    have hlast := h.isLast_iff hd
    by_cases hid : sendId = d.request.sendId
    · subst hid
      simp [Call.cancels, ← hlast]
    · have hother : l.timers.get? sendId ≠ some position := by
        rw [Ne, h.timers, hd]
        simp [Ne.symm hid]
      simp [Call.cancels, hid, hother]
  have hwaiting : l.waiting[position]? = sends[position]?.map Delayed.waiting := by
    rw [h.waiting, List.getElem?_map]
  rw [List.getElem?_map, List.getElem?_map]
  cases hget : l.timers.get? sendId with
  | none =>
    simp only [cancel, hget, hwaiting]
    cases hd : sends[position]? with
    | none => rfl
    | some d =>
      have hgoes := hstops d hd
      rw [hget] at hgoes
      simp only [Option.map_some, Delayed.waiting_past, hgoes]
      simp [Delayed.waiting]
  | some p =>
    simp only [cancel, hget, List.getElem?_modify, hwaiting]
    cases hd : sends[position]? with
    | none => rfl
    | some d =>
      have hgoes := hstops d hd
      rw [hget] at hgoes
      simp only [Option.map_some, Delayed.waiting_past, hgoes]
      by_cases hp : p = position <;> simp [Delayed.waiting, hp]

/-- A cancel ends the timer under the id. -/
theorem cancelled (h : Shows l sends) (sendId : String) :
    Shows (l.cancel sendId) (sends.map (Delayed.past (.cancel sendId))) where
  waiting := h.waiting_cancel sendId
  timers id position := by
    have hconcerns : (Call.cancel sendId).concerns id = decide (sendId = id) := by
      simp [Call.concerns, Call.cancels, Call.delayed?]
    rw [exists_last_past, ← h.timers, hconcerns, Loopback.cancel]
    cases hget : l.timers.get? sendId with
    | none =>
      by_cases hid : sendId = id
      · subst hid
        simp [hget]
      · simp [hid]
    | some p =>
      rw [SortedMap.get?_erase]
      by_cases hid : sendId = id
      · simp [hid]
      · simp [hid, Ne.symm hid]

theorem answer (h : Shows l sends) (call : Call) :
    Shows (call.answer l) (sends.map (Delayed.past call) ++
      (call.delayed?.map (fun request => Delayed.mk request [])).toList) := by
  cases call with
  | cancel sendId => simpa [Call.answer, Call.delayed?] using h.cancelled sendId
  | send request =>
    cases hdelayed : (Call.send request).delayed? with
    | none =>
      rw [Call.answer_of_not_delayed hdelayed]
      simpa using h.passed hdelayed
    | some r =>
      obtain rfl : request = r := by
        rw [Call.delayed?] at hdelayed
        split at hdelayed
        · exact Option.some.inj hdelayed
        · cases hdelayed
      rw [Call.answer_of_delayed hdelayed]
      simpa using h.delayed hdelayed

end Shows

/-- After any calls the host shows what the calls tell. -/
theorem shows_after (calls : List Call) : Shows (after calls) (delayed calls) := by
  induction calls using List.reverseRecOn with
  | nil =>
    refine ⟨rfl, ?_⟩
    intro sendId position
    simp [after, empty, delayed]
  | append_singleton calls call ih =>
    rw [after_append_singleton, delayed_append_singleton]
    exact ih.answer call

/-- Among the sends whose ids have not been used since, no two have the same id. -/
theorem nodup_filter_isLast (calls : List Call) :
    (((delayed calls).filter Delayed.isLast).map (·.request.sendId)).Nodup := by
  induction calls with
  | nil => exact .nil
  | cons call rest ih =>
    rw [delayed]
    cases hdelayed : call.delayed? with
    | none => exact ih
    | some request =>
      rw [Option.map_some, Option.toList_some, List.singleton_append, List.filter_cons]
      split
      · next hlast =>
        refine List.nodup_cons.mpr ⟨?_, ih⟩
        intro hmem
        obtain ⟨d, hd, hid⟩ := List.mem_map.mp hmem
        obtain ⟨earlier, again, hrest, hagain⟩ := mem_delayed.mp (List.mem_of_mem_filter hd)
        -- the send that used the id again concerns the first one
        have hconcerns : again.concerns request.sendId = true := by
          rw [Call.concerns_of_delayed hagain]
          exact decide_eq_true hid
        have hnone : rest.find? (Call.concerns request.sendId) = none := by
          simpa [Delayed.isLast, Delayed.next?] using hlast
        exact List.find?_eq_none.mp hnone again (by simp [hrest]) hconcerns
      · exact ih

/-- As many timers run as there are delayed sends whose ids have not been used since. -/
theorem pendingTimers_after (calls : List Call) :
    (after calls).pendingTimers = ((delayed calls).filter Delayed.isLast).length := by
  have hkeys : (after calls).timers.keys.Perm
      (((delayed calls).filter Delayed.isLast).map (·.request.sendId)) := by
    refine (List.perm_ext_iff_of_nodup (SortedMap.keys_nodup _) (nodup_filter_isLast calls)).mpr ?_
    intro sendId
    simp only [SortedMap.mem_keys_iff, Option.isSome_iff_exists, (shows_after calls).timers,
      List.mem_map, List.mem_filter]
    constructor
    · rintro ⟨position, d, hd, hid, hlast⟩
      exact ⟨d, ⟨List.mem_of_getElem? hd, hlast⟩, hid⟩
    · rintro ⟨d, ⟨hd, hlast⟩, hid⟩
      obtain ⟨position, hposition⟩ := List.mem_iff_getElem?.mp hd
      exact ⟨position, d, hposition, hid, hlast⟩
  simpa [pendingTimers, SortedMap.size, SortedMap.keys] using hkeys.length_eq

/-- The sends that will be delivered are those whose ids were not cancelled before they were used
again. -/
theorem undelivered_after (calls : List Call) :
    (after calls).undelivered =
      ((delayed calls).filter (fun d => !d.isStopped)).map (·.request.toEvent) := by
  rw [undelivered, (shows_after calls).waiting, List.filter_map, List.map_map]
  rfl

namespace Delayed

variable {d : Delayed}

/-- A send whose id was not shared is outstanding exactly if its timer runs. -/
theorem isLast_eq_isOutstanding
    (h : ∀ call, d.next? = some call → call.cancels d.request.sendId = true) :
    d.isLast = d.isOutstanding := by
  cases hnext : d.next? with
  | none =>
    have hpassed := List.find?_eq_none.mp hnext
    have houtstanding : d.isOutstanding = true := by
      simp only [isOutstanding, Bool.not_eq_true', List.any_eq_false]
      intro call hcall hcancels
      exact hpassed call hcall (Call.concerns_of_cancels hcancels)
    simp [isLast, hnext, houtstanding]
  | some call =>
    have hcall : call ∈ d.later := List.mem_of_find?_eq_some hnext
    have houtstanding : d.isOutstanding = false := by
      simp only [isOutstanding, Bool.not_eq_false', List.any_eq_true]
      exact ⟨call, hcall, h call hnext⟩
    simp [isLast, hnext, houtstanding]

/-- A send whose id was not shared has its timer or was stopped. -/
theorem isStopped_eq_not_isLast
    (h : ∀ call, d.next? = some call → call.cancels d.request.sendId = true) :
    d.isStopped = !d.isLast := by
  cases hnext : d.next? with
  | none => simp [isStopped, isLast, hnext]
  | some call => simp [isStopped, isLast, hnext, h call hnext]

end Delayed

theorem Unshared.of_append {calls more : List Call} (h : Unshared (calls ++ more)) :
    Unshared calls := by
  intro d hd call hnext
  obtain ⟨earlier, first, hcalls, hfirst⟩ := mem_delayed.mp hd
  have hmem : ⟨d.request, d.later ++ more⟩ ∈ delayed (calls ++ more) :=
    mem_delayed.mpr ⟨earlier, first, by simp [hcalls], hfirst⟩
  refine h _ hmem call ?_
  rw [Delayed.next?] at hnext ⊢
  rw [List.find?_append, hnext, Option.some_or]

theorem Unshared.accounted {calls : List Call} (h : Unshared calls) : Accounted calls where
  pending := by
    rw [pendingTimers_after, outstanding]
    exact congrArg List.length
      (List.filter_congr fun d hd => Delayed.isLast_eq_isOutstanding (h d hd))
  undelivered := by
    rw [undelivered_after, outstanding]
    refine congrArg _ (List.filter_congr ?_)
    intro d hd
    rw [Delayed.isStopped_eq_not_isLast (h d hd), Bool.not_not,
      Delayed.isLast_eq_isOutstanding (h d hd)]
  cancel := by
    intro sendId w hw hid
    rw [(shows_after calls).waiting_cancel, List.map_map] at hw
    obtain ⟨d, hd, rfl⟩ := List.mem_map.mp hw
    have hid : sendId = d.request.sendId := hid.symm
    simp [Delayed.waiting_past, Delayed.isStopped_eq_not_isLast (h d hd), Call.cancels, hid]

/-- A host accounts for its delayed sends at any time exactly if no send id is used for another
delayed send before it was cancelled. -/
theorem unshared_iff_accounted (calls : List Call) :
    Unshared calls ↔ ∀ sofar, sofar <+: calls → Accounted sofar := by
  constructor
  · rintro h sofar ⟨more, rfl⟩
    exact h.of_append.accounted
  · intro h d hd call hnext
    obtain ⟨earlier, first, rfl, hfirst⟩ := mem_delayed.mp hd
    obtain ⟨hconcerns, passed, rest, hlater, hpassed⟩ := List.find?_eq_some_iff_append.mp hnext
    -- a cancel of the id right after the call would stop the send
    have hsofar : earlier ++ first :: (passed ++ [call]) <+: earlier ++ first :: d.later :=
      ⟨rest, by simp [hlater]⟩
    have hcancel := (h _ hsofar).cancel d.request.sendId
    rw [(shows_after _).waiting_cancel, List.map_map] at hcancel
    have hmem : ⟨d.request, passed ++ [call]⟩ ∈ delayed (earlier ++ first :: (passed ++ [call])) :=
      mem_delayed.mpr ⟨earlier, first, rfl, hfirst⟩
    have hstopped := hcancel _ (List.mem_map_of_mem hmem) rfl
    have hfound : (Delayed.mk d.request (passed ++ [call])).next? = some call :=
      List.find?_eq_some_iff_append.mpr ⟨hconcerns, passed, [], rfl, hpassed⟩
    simpa [Delayed.waiting_past, Delayed.isStopped, Delayed.isLast, hfound] using hstopped

/-- A reminder and, before it is due, another one with the same send id. -/
def reminders : List Call :=
  [.send ⟨"reminder", "first", none, none, none, 3600000, "desk"⟩,
    .send ⟨"reminder", "second", none, none, none, 3600000, "desk"⟩]

/-- The timer of the first reminder is lost: one timer is left for two sends, and a cancel does not
stop the first one. -/
theorem exists_timer_lost :
    ((after reminders).pendingTimers = 1 ∧ (outstanding reminders).length = 2) ∧
      ((after reminders).cancel "reminder").undelivered.map Event.name = ["first"] ∧
      ¬ ∀ calls, Accounted calls := by
  have hpending : (after reminders).pendingTimers = 1 := by decide
  have houtstanding : (outstanding reminders).length = 2 := by decide
  refine ⟨⟨hpending, houtstanding⟩, by decide, ?_⟩
  intro h
  have hsame := (h reminders).pending
  rw [hpending, houtstanding] at hsame
  cases hsame

end Statechart.Loopback
