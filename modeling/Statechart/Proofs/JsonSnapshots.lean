import Statechart.Proofs.Json.Values
import Statechart.Proofs.ByteSnapshots
import Statechart.Snapshot.Json

/-!
Snapshots are read back from their JSON texts but for two things that the texts cannot tell or
the reader does not take: a payload that is null is written as a payload that is missing, and
containers may be nested only so deep, those of the snapshot included.
-/

namespace Statechart

open Json (Tree Reader Fields)

namespace Event

/-- A payload as a record tells it, where null stands for what is missing. -/
def toldPayload : Option Json.Value → Option Json.Value
  | some .null => none
  | data => data

/-- An event as its record tells it. -/
def told (e : Event) : Event :=
  { e with data := toldPayload e.data }

theorem told_eq_self {e : Event} : e.told = e ↔ e.data ≠ some .null := by
  have hdata : e.told = e ↔ toldPayload e.data = e.data := by
    cases e
    simp [told]
  rw [hdata]
  unfold toldPayload
  split
  · next h => simp [h]
  · next h => exact iff_of_true rfl h

/-- The contents of the fields of an event, in their order. -/
def fieldTrees (e : Event) : List Tree :=
  [textTree e.name, textTree e.kind.storedName, optionTree textTree e.sendId,
    optionTree textTree e.origin, optionTree textTree e.invokeId,
    optionTree Json.Value.toTree e.data]

theorem toTree_eq_record (e : Event) :
    e.toTree = .object ((fieldNames.map Json.piecesOf).zip e.fieldTrees) := rfl

theorem optional_textTree (o : Option String) (room : Nat) :
    Reader.optional Reader.text room (optionTree textTree o).scanned = some o := by
  cases o with
  | none => rfl
  | some s =>
    have htext := Reader.text_scanned s room
    rw [Tree.scanned] at htext
    rw [optionTree, textTree, Tree.scanned, Reader.optional, htext]
    · rfl
    · simp

theorem name_storedName (kind : EventKind) (room : Nat) :
    Reader.name EventKind.ofStoredName? room (textTree kind.storedName).scanned = some kind := by
  rw [textTree, Tree.scanned, Reader.name, Json.piecesOf, Json.textOf?_scanned, Option.bind_some,
    String.ofList_toList]
  cases kind <;> decide

/-- A payload is read unless it is nested too deep. -/
theorem optional_payload {data : Option Json.Value} (h : ∀ v ∈ data, v.Integral) (room : Nat) :
    Reader.optional Reader.value room (optionTree Json.Value.toTree data).scanned =
      if ∀ v ∈ data, v.depth ≤ room then some (toldPayload data) else none := by
  cases data with
  | none => simp [optionTree, Tree.scanned, Reader.optional, toldPayload]
  | some v =>
    have hread : Reader.value room v.toTree.scanned = if v.depth ≤ room then some v else none :=
      Json.Value.ofTree?_scanned (h v rfl) room
    by_cases hnull : v = .null
    · subst hnull
      simp [optionTree, Json.Value.toTree, Tree.scanned, Reader.optional, toldPayload,
        Json.Value.depth]
    · have hvalue : v.toTree.scanned ≠ .null := by
        cases v <;> simp_all [Json.Value.toTree, Tree.scanned]
      have htold : toldPayload (some v) = some v := by
        unfold toldPayload
        split <;> simp_all
      rw [optionTree, Reader.optional, hread, htold]
      · by_cases hdepth : v.depth ≤ room <;> simp [hdepth]
      · exact hvalue

/-- The record of an event is read unless its payload is nested too deep. -/
theorem reader_scanned {e : Event} (h : ∀ v ∈ e.data, v.Integral) {room : Nat}
    (hroom : room ≠ 0) :
    reader room e.toTree.scanned =
      if ∀ v ∈ e.data, v.depth ≤ room - 1 then some e.told else none := by
  have hnodup : fieldNames.Nodup := by decide
  rw [reader, if_neg hroom, toTree_eq_record, Fields.ofTree?_scanned fieldNames hnodup,
    Option.bind_eq_bind, Option.bind_some]
  refine (Fields.bind_required? hnodup 0 rfl rfl (Reader.text_scanned e.name _) _).trans ?_
  refine (Fields.bind_required? hnodup 1 rfl rfl (name_storedName e.kind _) _).trans ?_
  refine (Fields.bind_orElse? hnodup 2 rfl rfl (optional_textTree e.sendId _) _).trans ?_
  refine (Fields.bind_orElse? hnodup 3 rfl rfl (optional_textTree e.origin _) _).trans ?_
  refine (Fields.bind_orElse? hnodup 4 rfl rfl (optional_textTree e.invokeId _) _).trans ?_
  rw [Fields.orElse?_record hnodup 5 rfl rfl, optional_payload h]
  split
  · rfl
  · rfl

end Event

theorem plain_record (names : List String) {trees : List Tree}
    (h : ∀ tree ∈ trees, tree.Plain) :
    (Tree.object ((names.map Json.piecesOf).zip trees)).Plain := by
  refine .object (fun m hm => ?_) (fun m hm => ?_)
  · obtain ⟨name, -, hname⟩ := List.mem_map.1 (List.of_mem_zip hm).1
    exact ⟨name.toList, hname.symm⟩
  · exact h m.2 (List.of_mem_zip hm).2

namespace Event

theorem plain_optionTree {α : Type} {f : α → Tree} {o : Option α} (h : ∀ a ∈ o, (f a).Plain) :
    (optionTree f o).Plain := by
  cases o with
  | none => exact .null
  | some a => exact h a rfl

theorem plain_toTree {e : Event} (h : ∀ v ∈ e.data, v.Integral) : e.toTree.Plain := by
  have htext : ∀ s, (textTree s).Plain := fun s => .text s.toList
  have hoption : ∀ o, (optionTree textTree o).Plain :=
    fun o => plain_optionTree (fun s _ => htext s)
  have hdata : (optionTree Json.Value.toTree e.data).Plain :=
    plain_optionTree (fun v hv => Json.Value.plain_toTree (h v hv))
  rw [toTree_eq_record]
  refine plain_record fieldNames ?_
  simp only [fieldTrees, List.forall_mem_cons, htext, hoption, hdata, true_and]
  exact fun _ h => absurd h List.not_mem_nil

end Event

namespace Snapshot

theorem plain_textsTree (texts : List String) : (textsTree texts).Plain := by
  refine .list fun tree htree => ?_
  obtain ⟨s, -, rfl⟩ := List.mem_map.1 htree
  exact .text s.toList

theorem plain_mapTree {α : Type} {f : α → Tree} {m : SortedMap String α}
    (h : ∀ e ∈ m.entries, (f e.2).Plain) : (mapTree f m).Plain := by
  refine .object (fun n hn => ?_) (fun n hn => ?_)
  · obtain ⟨e, -, rfl⟩ := List.mem_map.1 hn
    exact ⟨e.1.toList, rfl⟩
  · obtain ⟨e, he, rfl⟩ := List.mem_map.1 hn
    exact h e he

theorem plain_varsTree {vars : Vars} (h : ∀ e ∈ vars.entries, e.2.Integral) :
    (varsTree vars).Plain :=
  plain_mapTree (fun e he => Json.Value.plain_toTree (h e he))

end Snapshot

namespace Snapshot

section Parts

variable {room : Nat}

theorem text_scanned (s : String) (room : Nat) :
    Reader.text room (textTree s).scanned = some s :=
  Reader.text_scanned s room

theorem texts_scanned (texts : List String) (hroom : room ≠ 0) :
    Reader.list Reader.text room (textsTree texts).scanned = some texts := by
  have htext : ∀ s ∈ texts, Reader.text (room - 1) (textTree s).scanned =
      if True then some (id s) else none := fun s _ => by
    rw [if_pos trivial]
    exact text_scanned s _
  rw [textsTree, Reader.list_scanned hroom htext, if_pos (fun _ _ => trivial), List.map_id]

theorem textMap_scanned (m : SortedMap String (List String)) (hroom : 2 ≤ room) :
    Reader.map (Reader.list Reader.text) room (mapTree textsTree m).scanned = some m := by
  have htexts : ∀ e ∈ m.entries, Reader.list Reader.text (room - 1) (textsTree e.2).scanned =
      if True then some e.2 else none := fun e _ => by
    rw [if_pos trivial]
    exact texts_scanned e.2 (by omega)
  rw [mapTree, Reader.map_scanned textsTree (fun _ => True) (by omega) htexts,
    if_pos (fun _ _ => trivial)]

theorem vars_scanned {vars : Vars} (h : ∀ e ∈ vars.entries, e.2.Integral) (hroom : room ≠ 0) :
    Reader.map Reader.value room (varsTree vars).scanned =
      if ∀ e ∈ vars.entries, e.2.depth ≤ room - 1 then some vars else none :=
  Reader.map_scanned Json.Value.toTree (fun v => v.depth ≤ room - 1) hroom
    (fun e he => Json.Value.ofTree?_scanned (h e he) _)

theorem contexts_scanned {contexts : SortedMap String Vars}
    (h : ∀ f ∈ contexts.entries, ∀ e ∈ f.2.entries, e.2.Integral) (hroom : 2 ≤ room) :
    Reader.map (Reader.map Reader.value) room (mapTree varsTree contexts).scanned =
      if ∀ f ∈ contexts.entries, ∀ e ∈ f.2.entries, e.2.depth ≤ room - 1 - 1
        then some contexts else none :=
  Reader.map_scanned varsTree (fun vars => ∀ e ∈ vars.entries, e.2.depth ≤ room - 1 - 1)
    (by omega) (fun f hf => vars_scanned (h f hf) (by omega))

theorem events_scanned {events : List Event} (h : ∀ e ∈ events, ∀ v ∈ e.data, v.Integral)
    (hroom : 2 ≤ room) :
    Reader.list Event.reader room (Tree.list (events.map Event.toTree)).scanned =
      if ∀ e ∈ events, ∀ v ∈ e.data, v.depth ≤ room - 1 - 1 then some (events.map Event.told)
        else none :=
  Reader.list_scanned (by omega) (fun e he => Event.reader_scanned (h e he) (by omega))

theorem timestamp_scanned {t : Timestamp} (h : Timestamp.parse? t.render = some t) (room : Nat) :
    timestampReader room (textTree t.render).scanned = some t := by
  rw [timestampReader, text_scanned, Option.bind_some, h]

end Parts

/-- A snapshot as its text tells it. -/
def told (snap : Snapshot) : Snapshot :=
  { snap with internalEvents := snap.internalEvents.map Event.told }

theorem told_eq_self {snap : Snapshot} :
    snap.told = snap ↔ ∀ e ∈ snap.internalEvents, e.data ≠ some .null := by
  have hevents : snap.told = snap ↔ snap.internalEvents.map Event.told = snap.internalEvents := by
    cases snap
    simp [told]
  have hall : snap.internalEvents.map Event.told = snap.internalEvents ↔
      ∀ e ∈ snap.internalEvents, e.told = id e := by
    rw [← List.map_inj_left, List.map_id]
  rw [hevents, hall]
  exact forall₂_congr fun e _ => Event.told_eq_self

/-- Values are not nested too deep for a reader, together with what they stand in. -/
def Shallow (snap : Snapshot) : Prop :=
  (∀ e ∈ snap.global.entries, e.2.depth ≤ Json.nestingLimit - 2) ∧
    (∀ f ∈ snap.contexts.entries, ∀ e ∈ f.2.entries, e.2.depth ≤ Json.nestingLimit - 3) ∧
      ∀ e ∈ snap.internalEvents, ∀ v ∈ e.data, v.depth ≤ Json.nestingLimit - 3

instance (snap : Snapshot) : Decidable snap.Shallow :=
  inferInstanceAs (Decidable (_ ∧ _ ∧ _))

theorem getElem?_chart (snap : Snapshot) :
    snap.fieldTrees[3]? = some (Event.optionTree textTree snap.chart) := by
  rw [fieldTrees]
  cases snap.chart with
  | none => rfl
  | some name => rfl

section Values

variable {snap : Snapshot} (hvalues : ∀ v ∈ snap.values, v.Integral)

include hvalues

/-- The record of a snapshot is read, if nothing in it is nested too deep. -/
theorem reader_scanned
    (hstamp : Timestamp.parse? snap.stamp.timestamp.render = some snap.stamp.timestamp) :
    reader Json.nestingLimit snap.toTree.scanned =
      if snap.Shallow then some snap.told else none := by
  have hversion : Reader.unsigned UInt32.size (Json.nestingLimit - 1)
      (Tree.number (.ofNat snap.version.toNat)).scanned = some snap.version.toNat :=
    Reader.unsigned_scanned snap.version.toNat_lt _
  have hsequence : Reader.unsigned UInt64.size (Json.nestingLimit - 1)
      (Tree.number (.ofNat snap.sequence.toNat)).scanned = some snap.sequence.toNat :=
    Reader.unsigned_scanned snap.sequence.toNat_lt _
  have hrunning : Reader.bool (Json.nestingLimit - 1) (Tree.bool snap.running).scanned =
    some snap.running := rfl
  have hroom : 2 ≤ Json.nestingLimit - 1 := by decide
  have hinside : Json.nestingLimit - 1 ≠ 0 := by decide
  have hnodup : fieldNames.Nodup := by decide
  obtain ⟨hglobal, hcontexts, hevents⟩ := forall_values hvalues
  replace hglobal := vars_scanned hglobal hinside
  replace hcontexts := contexts_scanned hcontexts hroom
  replace hevents := events_scanned hevents hroom
  rw [reader, if_neg (by decide), toTree, Fields.ofTree?_scanned fieldNames hnodup,
    Option.bind_eq_bind, Option.bind_some]
  refine (Fields.bind_required? hnodup 0 rfl rfl hversion _).trans ?_
  refine (Fields.bind_required? hnodup 1 rfl rfl (text_scanned _ _) _).trans ?_
  refine (Fields.bind_required? hnodup 2 rfl rfl (timestamp_scanned hstamp _) _).trans ?_
  refine (Fields.bind_orElse? hnodup 3 rfl snap.getElem?_chart
    (Event.optional_textTree snap.chart _) _).trans ?_
  refine (Fields.bind_required? hnodup 4 rfl rfl (text_scanned _ _) _).trans ?_
  refine (Fields.bind_required? hnodup 5 rfl rfl hrunning _).trans ?_
  refine (Fields.bind_required? hnodup 6 rfl rfl (texts_scanned _ hinside) _).trans ?_
  refine (Fields.bind_required? hnodup 7 rfl rfl (textMap_scanned _ hroom) _).trans ?_
  refine (Fields.bind_required? hnodup 8 rfl rfl (texts_scanned _ hinside) _).trans ?_
  refine (Fields.bind_required? hnodup 9 rfl rfl (textMap_scanned _ hroom) _).trans ?_
  refine (Fields.bind_required? hnodup 10 rfl rfl (texts_scanned _ hinside) _).trans ?_
  -- Of the fields that may be nested too deep the first that is decides.
  by_cases hglobal' : ∀ e ∈ snap.global.entries, e.2.depth ≤ Json.nestingLimit - 2
  swap
  · have hnone := hglobal.trans (if_neg hglobal')
    exact (Fields.bind_required?_eq_none hnodup 11 rfl rfl hnone _).trans
      (if_neg (fun h => hglobal' h.1)).symm
  refine (Fields.bind_required? hnodup 11 rfl rfl (hglobal.trans (if_pos hglobal')) _).trans ?_
  by_cases hcontexts' : ∀ f ∈ snap.contexts.entries, ∀ e ∈ f.2.entries,
      e.2.depth ≤ Json.nestingLimit - 3
  swap
  · exact (Fields.bind_required?_eq_none hnodup 12 rfl rfl (hcontexts.trans (if_neg hcontexts'))
      _).trans (if_neg (fun h => hcontexts' h.2.1)).symm
  refine (Fields.bind_required? hnodup 12 rfl rfl (hcontexts.trans (if_pos hcontexts')) _).trans ?_
  by_cases hevents' : ∀ e ∈ snap.internalEvents, ∀ v ∈ e.data, v.depth ≤ Json.nestingLimit - 3
  swap
  · have hnone := hevents.trans (if_neg hevents')
    exact (Fields.bind_required?_eq_none hnodup 13 rfl rfl hnone _).trans
      (if_neg (fun h => hevents' h.2.2)).symm
  refine (Fields.bind_required? hnodup 13 rfl rfl (hevents.trans (if_pos hevents')) _).trans ?_
  refine (Fields.bind_required? hnodup 14 rfl rfl hsequence _).trans ?_
  rw [if_pos ⟨hglobal', hcontexts', hevents'⟩, UInt32.ofNat_toNat, UInt64.ofNat_toNat]
  rfl

theorem plain_toTree : snap.toTree.Plain := by
  have htext : ∀ s, (textTree s).Plain := fun s => .text s.toList
  have hnumber : ∀ n : Nat, (Tree.number (.ofNat n)).Plain := fun n =>
    Json.Numeral.ofNat_eq_ofInt n ▸ .number n
  have htexts := fun m : SortedMap String (List String) =>
    plain_mapTree (m := m) (fun e _ => plain_textsTree e.2)
  obtain ⟨hglobal, hcontexts, hevents⟩ := forall_values hvalues
  replace hglobal := plain_varsTree hglobal
  replace hcontexts : (mapTree varsTree snap.contexts).Plain :=
    plain_mapTree (fun f hf => plain_varsTree (hcontexts f hf))
  replace hevents : (Tree.list (snap.internalEvents.map Event.toTree)).Plain := by
    refine .list fun tree htree => ?_
    obtain ⟨e, he, rfl⟩ := List.mem_map.1 htree
    exact Event.plain_toTree (hevents e he)
  refine plain_record fieldNames ?_
  simp only [fieldTrees, List.forall_mem_cons, htext, hnumber, htexts, hglobal, hcontexts, hevents,
    plain_textsTree, Tree.Plain.bool, true_and]
  refine ⟨?_, fun _ h => absurd h List.not_mem_nil⟩
  cases snap.chart with
  | none => exact .null
  | some name => exact htext name

/-- Of the text of a snapshot there is read what it tells, if nothing is nested too deep. -/
theorem ofJson_toJson (hversion : snap.version = currentVersion)
    (hstamp : Timestamp.parse? snap.stamp.timestamp.render = some snap.stamp.timestamp) :
    ofJson snap.toJson = if snap.Shallow then .ok snap.told else .error .unreadable := by
  rw [ofJson, toJson, Tree.read_indented (plain_toTree hvalues), Option.bind_some,
    reader_scanned hvalues hstamp]
  by_cases hshallow : snap.Shallow
  · simp only [hshallow, if_true, checkVersion, told, hversion]
    rfl
  · simp only [hshallow, if_false]

end Values

/-- A snapshot is read back from its text exactly if no event in it carries null, and nothing is
nested too deep. -/
theorem ofJson_toJson_iff {snap : Snapshot} (hversion : snap.version = currentVersion)
    (hstamp : Timestamp.parse? snap.stamp.timestamp.render = some snap.stamp.timestamp)
    (hvalues : ∀ v ∈ snap.values, v.Integral) :
    ofJson snap.toJson = .ok snap ↔
      (∀ e ∈ snap.internalEvents, e.data ≠ some .null) ∧ snap.Shallow := by
  rw [ofJson_toJson hvalues hversion hstamp, ← told_eq_self]
  by_cases hshallow : snap.Shallow
  · simp [hshallow]
  · simp [hshallow]

/-- A snapshot in which an event waits that carries a list. -/
def ringing : Snapshot :=
  { waiting with internalEvents :=
      [{ Event.signal "alarm" with data := some (.list [.text "ring\x01", .int (-7)]) }] }

theorem parse?_stamp_waiting :
    Timestamp.parse? waiting.stamp.timestamp.render = some waiting.stamp.timestamp :=
  Timestamp.parse?_render ⟨⟨by decide +kernel, by decide, by decide⟩, fun _ => rfl⟩

theorem ofJson_toJson_ringing : ofJson ringing.toJson = .ok ringing := by
  have hlist : ringing.values = [.int 11, .list [.text "ring\x01", .int (-7)]] := rfl
  have hvalues : ∀ v ∈ ringing.values, v.Integral := by
    have hint : ∀ i : Int, -2 ^ 63 ≤ i ∧ i < 2 ^ 64 → (Json.Value.int i).Integral :=
      fun i hi => .int hi.1 hi.2
    simp only [hlist, List.forall_mem_cons]
    refine ⟨hint 11 (by decide), .list ?_, by simp⟩
    simp only [List.forall_mem_cons]
    exact ⟨.text _, hint (-7) (by decide), by simp⟩
  have hstamp : Timestamp.parse? ringing.stamp.timestamp.render =
      some ringing.stamp.timestamp := parse?_stamp_waiting
  have hversion : ringing.version = currentVersion := rfl
  have hshallow : ringing.Shallow := by decide +kernel
  have hdata : ∀ e ∈ ringing.internalEvents, e.data ≠ some .null := by simp [ringing]
  exact (ofJson_toJson_iff hversion hstamp hvalues).2 ⟨hdata, hshallow⟩

/-- A payload that is null is lost, though its text is read back. -/
theorem exists_payload_lost : ¬ ∀ snap : Snapshot, snap.version = currentVersion →
    Timestamp.parse? snap.stamp.timestamp.render = some snap.stamp.timestamp →
    (∀ v ∈ snap.values, v.Integral ∧ Json.Value.read v.compact = some v) →
    ofJson snap.toJson = .ok snap := by
  intro h
  have hvalues : ∀ v ∈ waiting.values, v.Integral ∧ Json.Value.read v.compact = some v := by
    have hlist : waiting.values = [.int 11, .null] := rfl
    simp only [hlist, List.forall_mem_cons]
    exact ⟨⟨.int (by decide) (by decide), rfl⟩, ⟨.null, rfl⟩, by simp⟩
  have hread := h waiting rfl parse?_stamp_waiting hvalues
  rw [ofJson_toJson (fun v hv => (hvalues v hv).1) rfl parse?_stamp_waiting,
    if_pos (by decide +kernel)] at hread
  have hsame := told_eq_self.1 (Except.ok.inj hread)
  exact hsame { Event.signal "alarm" with data := some .null } (by simp [waiting]) rfl

end Snapshot

end Statechart
