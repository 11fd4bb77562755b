import Statechart.Proofs.Collections
import Statechart.Proofs.Timestamps
import Statechart.Snapshot.Bytes

/-!
Snapshots are read back from their bytes. Every part is read off in front of whatever follows it
and leaves exactly that, so that parts can be put together: the rest of a number, a text or an
entry is where the next part begins.
-/

namespace Statechart

/-- A piece of data as a format without names sees it. -/
inductive Datum where
  | bool (value : Bool)
  /-- A number of `width` bytes. -/
  | number (width value : Nat)
  | text (value : String)
  | absent
  | present (value : Datum)
  | list (items : List Datum)
  | map (entries : List (String × Datum))
  /-- One of several cases without contents, by its place among them. -/
  | variant (index : Nat)
  | record (fields : List Datum)

namespace Datum

/-- The digits of `value` to the base 256, least significant first. -/
def littleEndian (width value : Nat) : List UInt8 :=
  (List.range width).map (fun i => UInt8.ofNat (value / 256 ^ i % 256))

/-- A text has the number of its bytes in front. -/
def textLayout (s : String) : List UInt8 :=
  littleEndian 8 s.utf8ByteSize ++ s.toByteArray.data.toList

mutual
/-- Lengths are numbers of eight bytes, cases numbers of four, and a byte tells what is present
from what is absent; a record is its fields, one after the other. -/
def layout : Datum → List UInt8
  | .bool b => [if b then 1 else 0]
  | .number width value => littleEndian width value
  | .text s => textLayout s
  | .absent => [0]
  | .present value => 1 :: value.layout
  | .list items => littleEndian 8 items.length ++ layouts items
  | .map entries => littleEndian 8 entries.length ++ entryLayouts entries
  | .variant index => littleEndian 4 index
  | .record fields => layouts fields
def layouts : List Datum → List UInt8
  | [] => []
  | item :: items => item.layout ++ layouts items
def entryLayouts : List (String × Datum) → List UInt8
  | [] => []
  | (key, value) :: entries => textLayout key ++ value.layout ++ entryLayouts entries
end

def ofOption {α : Type} (f : α → Datum) : Option α → Datum
  | some a => .present (f a)
  | none => .absent

def ofList {α : Type} (f : α → Datum) (xs : List α) : Datum :=
  .list (xs.map f)

def ofMap {α : Type} (f : α → Datum) (m : SortedMap String α) : Datum :=
  .map (m.entries.map (fun e => (e.1, f e.2)))

/-- A value is stored as its compact text. -/
def ofValue (v : Json.Value) : Datum :=
  .text v.compact

def ofEvent (e : Event) : Datum :=
  .record [.text e.name, .variant (EventKind.all.idxOf e.kind), ofOption .text e.sendId,
    ofOption .text e.origin, ofOption .text e.invokeId, ofOption ofValue e.data]

def ofSnapshot (snap : Snapshot) : Datum :=
  .record [.number 4 snap.version.toNat, .text snap.stamp.id, .text snap.stamp.timestamp.render,
    ofOption .text snap.chart, .text snap.sessionId, .bool snap.running,
    ofList .text snap.active, ofMap (ofList .text) snap.histories,
    ofList .text snap.completed, ofMap (ofList .text) snap.invokes,
    ofList .text snap.pendingInvokes, ofMap ofValue snap.global,
    ofMap (ofMap ofValue) snap.contexts, ofList ofEvent snap.internalEvents,
    .number 8 snap.sequence.toNat]

end Datum

namespace Snapshot

/-- The bytes that `put` makes of `a` are never none, and, unless they are more than a number of
eight bytes can count, `take` reads `a` off them and leaves what follows. -/
structure Coded {α : Type} (put : α → Bytes) (take : Taker α) (a : α) : Prop where
  ne_nil : put a ≠ []
  reads : (put a).length < 2 ^ 64 → ∀ rest, take (put a ++ rest) = some (a, rest)

@[simp] theorem length_putNumber (width n : Nat) : (putNumber width n).length = width := by
  induction width generalizing n with
  | zero => rfl
  | succ width ih => rw [putNumber, List.length_cons, ih]

theorem takeNumber_putNumber {width n : Nat} (h : n < 256 ^ width) (rest : Bytes) :
    takeNumber width (putNumber width n ++ rest) = some (n, rest) := by
  induction width generalizing n with
  | zero =>
    obtain rfl : n = 0 := by simpa using h
    rfl
  | succ width ih =>
    have hhigh : n / 256 < 256 ^ width := by
      rw [Nat.pow_succ'] at h
      exact Nat.div_lt_of_lt_mul h
    have hlow : (UInt8.ofNat (n % 256)).toNat = n % 256 := by
      rw [UInt8.toNat_ofNat']
      omega
    rw [putNumber, List.cons_append, takeNumber]
    simp only [ih hhigh, Option.map_some, hlow, Nat.mod_add_div]

theorem takeLength_putNumber {n : Nat} (h : n < 2 ^ 64) (rest : Bytes) :
    takeNumber 8 (putNumber 8 n ++ rest) = some (n, rest) :=
  takeNumber_putNumber (by simpa using h) rest

theorem toList_loop (bytes : ByteArray) (i : Nat) (read : List UInt8) :
    ByteArray.toList.loop bytes i read = read.reverse ++ bytes.data.toList.drop i := by
  fun_induction ByteArray.toList.loop bytes i read with
  | case1 i read hlt ih =>
    have hi : i < bytes.data.toList.length := hlt
    have hget : bytes.get! i = bytes.data.toList[i] := getElem!_pos bytes.data i hlt
    rw [ih, List.reverse_cons, List.append_assoc, List.singleton_append, hget,
      List.getElem_cons_drop]
  | case2 i read hge =>
    rw [List.drop_eq_nil_of_le (Nat.le_of_not_lt hge), List.append_nil]

theorem toList_toUTF8 (s : String) : s.toUTF8.toList = s.toByteArray.data.toList := by
  rw [ByteArray.toList, toList_loop]
  rfl

theorem coded_text (s : String) : Coded putText takeText s where
  ne_nil := by simp [putText, putNumber]
  reads := by
    intro h rest
    have hlength : s.toUTF8.toList.length < 2 ^ 64 := by
      simp only [putText, List.length_append] at h
      omega
    have htext : String.fromUTF8? (ByteArray.mk s.toUTF8.toList.toArray) = some s := by
      rw [toList_toUTF8]
      simp [String.fromUTF8?, s.isValidUTF8, String.fromUTF8]
    simp only [putText, takeText, List.append_assoc, takeLength_putNumber hlength, takeBytes,
      List.take_left, List.drop_left, if_true, Option.bind_eq_bind, Option.bind_some, htext]

theorem coded_bool (b : Bool) : Coded putBool takeBool b where
  ne_nil := by simp [putBool]
  reads := by
    intro _ rest
    cases b <;> rfl

section Parts

variable {α β : Type} {put : α → Bytes} {take : Taker α}

theorem coded_option {o : Option α} (h : ∀ a ∈ o, Coded put take a) :
    Coded (putOption put) (takeOption take) o := by
  cases o with
  | none =>
    refine ⟨by simp [putOption], ?_⟩
    intro _ rest
    rfl
  | some a =>
    have ha := h a rfl
    refine ⟨by simp [putOption], ?_⟩
    intro hlt rest
    rw [putOption, List.length_cons] at hlt
    simp [putOption, takeOption, ha.reads (by omega)]

/-- As many items as there are are read off, one after the other. -/
theorem takeMany_flatMap {xs : List α} (h : ∀ a ∈ xs, Coded put take a)
    (hlt : (xs.flatMap put).length < 2 ^ 64) (rest : Bytes) :
    takeMany take xs.length (xs.flatMap put ++ rest) = some (xs, rest) := by
  induction xs with
  | nil => rfl
  | cons a xs ih =>
    rw [List.flatMap_cons, List.length_append] at hlt
    have hothers := ih (fun b hb => h b (List.mem_cons_of_mem a hb)) (by omega)
    simp only [List.flatMap_cons, List.append_assoc, List.length_cons, takeMany,
      (h a (by simp)).reads (by omega), hothers, Option.bind_eq_bind, Option.bind_some]

theorem length_le_flatMap {xs : List α} (h : ∀ a ∈ xs, put a ≠ []) :
    xs.length ≤ (xs.flatMap put).length := by
  induction xs with
  | nil => simp
  | cons a xs ih =>
    have ha := List.length_pos_iff.2 (h a (by simp))
    have hothers := ih (fun b hb => h b (List.mem_cons_of_mem a hb))
    rw [List.flatMap_cons, List.length_append, List.length_cons]
    omega

theorem coded_list {xs : List α} (h : ∀ a ∈ xs, Coded put take a) :
    Coded (putList put) (takeList take) xs where
  ne_nil := by simp [putList, putNumber]
  reads := by
    intro hlt rest
    rw [putList, List.length_append] at hlt
    have hle := length_le_flatMap (fun a ha => (h a ha).ne_nil)
    simp only [putList, takeList, List.append_assoc,
      takeLength_putNumber (by omega : xs.length < 2 ^ 64), Option.bind_eq_bind,
      Option.bind_some, takeMany_flatMap h (by omega)]

/-- The entry of a map has its key in front. -/
theorem coded_entry {e : String × α} (h : Coded put take e.2) :
    Coded (fun e => putText e.1 ++ put e.2)
      (fun bytes => do
        let (key, rest) ← takeText bytes
        let (value, rest) ← take rest
        some ((key, value), rest)) e where
  ne_nil := List.append_ne_nil_of_left_ne_nil (coded_text e.1).ne_nil _
  reads := by
    intro hlt rest
    dsimp only at hlt ⊢
    rw [List.length_append] at hlt
    simp only [List.append_assoc, (coded_text e.1).reads (by omega), h.reads (by omega),
      Option.bind_eq_bind, Option.bind_some]

theorem coded_map {m : SortedMap String α} (h : ∀ e ∈ m.entries, Coded put take e.2) :
    Coded (putMap put) (takeMap take) m where
  ne_nil := by simp [putMap, putList, putNumber]
  reads := by
    intro hlt rest
    have hentries := (coded_list (fun e he => coded_entry (h e he))).reads hlt rest
    simp only [putMap, takeMap, hentries]
    exact congrArg (fun n => some (n, rest)) (SortedMap.ofList_of_perm (.refl m.entries))

end Parts

theorem coded_texts (texts : List String) : Coded (putList putText) (takeList takeText) texts :=
  coded_list (fun s _ => coded_text s)

theorem coded_value {v : Json.Value} (h : Json.Value.read v.compact = some v) :
    Coded putValue takeValue v where
  ne_nil := (coded_text v.compact).ne_nil
  reads := by
    intro hlt rest
    simp only [putValue, takeValue, (coded_text v.compact).reads hlt, h, Option.bind_eq_bind,
      Option.bind_some]

theorem takeTimestamp_render {t : Timestamp} (hlt : (putText t.render).length < 2 ^ 64)
    (rest : Bytes) :
    takeTimestamp (putText t.render ++ rest) =
      (Timestamp.parse? t.render).map fun read => (read, rest) := by
  simp only [takeTimestamp, (coded_text t.render).reads hlt, Option.bind_eq_bind,
    Option.bind_some]
  cases Timestamp.parse? t.render with
  | none => rfl
  | some read => rfl

theorem coded_kind (kind : EventKind) : Coded putKind takeKind kind where
  ne_nil := by simp [putKind, putNumber]
  reads := by
    intro _ rest
    have hlt : EventKind.all.idxOf kind < 256 ^ 4 := by cases kind <;> decide
    have hkind : EventKind.all[EventKind.all.idxOf kind]? = some kind := by cases kind <;> rfl
    simp only [putKind, takeKind, takeNumber_putNumber hlt, hkind, Option.bind_eq_bind,
      Option.bind_some]

theorem coded_event {e : Event} (h : ∀ v ∈ e.data, Json.Value.read v.compact = some v) :
    Coded putEvent takeEvent e where
  ne_nil := by simp [putEvent, (coded_text e.name).ne_nil]
  reads := by
    intro hlt rest
    have htext : ∀ o : Option String, Coded (putOption putText) (takeOption takeText) o :=
      fun o => coded_option (fun s _ => coded_text s)
    simp only [putEvent, List.length_append] at hlt
    simp only [putEvent, takeEvent, List.append_assoc, (coded_text e.name).reads (by omega),
      (coded_kind e.kind).reads (by omega), (htext e.sendId).reads (by omega),
      (htext e.origin).reads (by omega), (htext e.invokeId).reads (by omega),
      (coded_option (fun v hv => coded_value (h v hv))).reads (by omega), Option.bind_eq_bind,
      Option.bind_some]

/-- The values in a snapshot: those of variables, and what events carry. -/
def values (snap : Snapshot) : List Json.Value :=
  snap.global.entries.map Prod.snd ++
    snap.contexts.entries.flatMap (fun e => e.2.entries.map Prod.snd) ++
      snap.internalEvents.filterMap Event.data

/-- What holds of all values holds of those of each part. -/
theorem forall_values {snap : Snapshot} {P : Json.Value → Prop} (h : ∀ v ∈ snap.values, P v) :
    (∀ e ∈ snap.global.entries, P e.2) ∧
      (∀ f ∈ snap.contexts.entries, ∀ e ∈ f.2.entries, P e.2) ∧
        ∀ e ∈ snap.internalEvents, ∀ v ∈ e.data, P v := by
  simp only [values, List.mem_append] at h
  refine ⟨fun e he => ?_, fun f hf e he => ?_, fun e he v hv => ?_⟩
  · exact h e.2 (.inl (.inl (List.mem_map_of_mem he)))
  · exact h e.2 (.inl (.inr (List.mem_flatMap.2 ⟨f, hf, List.mem_map_of_mem he⟩)))
  · exact h v (.inr (List.mem_filterMap.2 ⟨e, he, hv⟩))

theorem coded_vars {vars : Vars}
    (h : ∀ e ∈ vars.entries, Json.Value.read e.2.compact = some e.2) :
    Coded (putMap putValue) (takeMap takeValue) vars :=
  coded_map (fun e he => coded_value (h e he))

/-- A snapshot is read off in front of anything else, with the timestamp that the text of its own
is read as. -/
theorem take_toBytes {snap : Snapshot}
    (hvalues : ∀ v ∈ snap.values, Json.Value.read v.compact = some v)
    (hsize : snap.toBytes.length < 2 ^ 64) (rest : Bytes) :
    take (snap.toBytes ++ rest) = (Timestamp.parse? snap.stamp.timestamp.render).map fun read =>
      ({ snap with stamp := ⟨snap.stamp.id, read⟩ }, rest) := by
  obtain ⟨hglobal, hcontexts, hevents⟩ := forall_values hvalues
  replace hglobal : Coded (putMap putValue) (takeMap takeValue) snap.global := coded_vars hglobal
  replace hcontexts : Coded (putMap (putMap putValue)) (takeMap (takeMap takeValue))
      snap.contexts := coded_map (fun f hf => coded_vars (hcontexts f hf))
  replace hevents : Coded (putList putEvent) (takeList takeEvent) snap.internalEvents :=
    coded_list (fun e he => coded_event (hevents e he))
  have hversion : snap.version.toNat < 256 ^ 4 := snap.version.toNat_lt
  have hsequence : snap.sequence.toNat < 256 ^ 8 := snap.sequence.toNat_lt
  have hname : Coded (putOption putText) (takeOption takeText) snap.chart :=
    coded_option (fun s _ => coded_text s)
  have htexts : ∀ m : SortedMap String (List String),
      Coded (putMap (putList putText)) (takeMap (takeList takeText)) m :=
    fun m => coded_map (fun e _ => coded_texts e.2)
  simp only [toBytes, List.length_append] at hsize
  simp only [toBytes, List.append_assoc]
  -- Part after part, what is left begins with the next.
  refine (Timestamp.bind_of_read (takeNumber_putNumber hversion _) _).trans ?_
  refine (Timestamp.bind_of_read ((coded_text snap.stamp.id).reads (by omega) _) _).trans ?_
  dsimp only
  rw [takeTimestamp_render (by omega)]
  cases Timestamp.parse? snap.stamp.timestamp.render with
  | none => rfl
  | some read =>
    refine (Timestamp.bind_of_read rfl _).trans ?_
    refine (Timestamp.bind_of_read (hname.reads (by omega) _) _).trans ?_
    refine (Timestamp.bind_of_read ((coded_text snap.sessionId).reads (by omega) _) _).trans ?_
    refine (Timestamp.bind_of_read ((coded_bool snap.running).reads (by omega) _) _).trans ?_
    refine (Timestamp.bind_of_read ((coded_texts snap.active).reads (by omega) _) _).trans ?_
    refine (Timestamp.bind_of_read ((htexts snap.histories).reads (by omega) _) _).trans ?_
    refine (Timestamp.bind_of_read ((coded_texts snap.completed).reads (by omega) _) _).trans ?_
    refine (Timestamp.bind_of_read ((htexts snap.invokes).reads (by omega) _) _).trans ?_
    refine
      (Timestamp.bind_of_read ((coded_texts snap.pendingInvokes).reads (by omega) _) _).trans ?_
    refine (Timestamp.bind_of_read (hglobal.reads (by omega) _) _).trans ?_
    refine (Timestamp.bind_of_read (hcontexts.reads (by omega) _) _).trans ?_
    refine (Timestamp.bind_of_read (hevents.reads (by omega) _) _).trans ?_
    refine (Timestamp.bind_of_read (takeNumber_putNumber hsequence _) _).trans ?_
    simp only [UInt32.ofNat_toNat, UInt64.ofNat_toNat, Option.map_some]

theorem putNumber_eq_littleEndian (width n : Nat) :
    putNumber width n = Datum.littleEndian width n := by
  induction width generalizing n with
  | zero => rfl
  | succ width ih =>
    rw [putNumber, ih, Datum.littleEndian, Datum.littleEndian, List.range_succ_eq_map,
      List.map_cons, List.map_map]
    congr 1
    · simp
    · refine List.map_congr_left fun i _ => ?_
      simp [Nat.div_div_eq_div_mul, Nat.pow_succ']

theorem putText_eq_textLayout (s : String) : putText s = Datum.textLayout s := by
  have hsize : s.toByteArray.data.toList.length = s.utf8ByteSize := rfl
  simp only [putText, Datum.textLayout, putNumber_eq_littleEndian, toList_toUTF8, hsize]

theorem putText_eq_layout (s : String) : putText s = (Datum.text s).layout := by
  rw [putText_eq_textLayout, Datum.layout]

section Layout

variable {α : Type} {put : α → Bytes} {datum : α → Datum}

theorem putOption_eq_layout (h : ∀ a, put a = (datum a).layout) (o : Option α) :
    putOption put o = (Datum.ofOption datum o).layout := by
  cases o with
  | none => rw [putOption, Datum.ofOption, Datum.layout]
  | some a => rw [putOption, Datum.ofOption, Datum.layout, h]

theorem putList_eq_layout (h : ∀ a, put a = (datum a).layout) (xs : List α) :
    putList put xs = (Datum.ofList datum xs).layout := by
  have hitems : xs.flatMap put = Datum.layouts (xs.map datum) := by
    induction xs with
    | nil => rfl
    | cons a xs ih => rw [List.flatMap_cons, ih, h, List.map_cons, Datum.layouts]
  rw [putList, Datum.ofList, Datum.layout, hitems, putNumber_eq_littleEndian, List.length_map]

theorem putMap_eq_layout (h : ∀ a, put a = (datum a).layout) (m : SortedMap String α) :
    putMap put m = (Datum.ofMap datum m).layout := by
  have hentries : m.entries.flatMap (fun e => putText e.1 ++ put e.2) =
      Datum.entryLayouts (m.entries.map (fun e => (e.1, datum e.2))) := by
    induction m.entries with
    | nil => rfl
    | cons e entries ih =>
      rw [List.flatMap_cons, ih, putText_eq_textLayout, h, List.map_cons, Datum.entryLayouts]
  rw [putMap, putList, Datum.ofMap, Datum.layout, hentries, putNumber_eq_littleEndian,
    List.length_map]

end Layout

theorem putValue_eq_layout (v : Json.Value) : putValue v = (Datum.ofValue v).layout :=
  putText_eq_layout v.compact

theorem putTexts_eq_layout (texts : List String) :
    putList putText texts = (Datum.ofList .text texts).layout :=
  putList_eq_layout putText_eq_layout texts

theorem putVars_eq_layout (vars : Vars) :
    putMap putValue vars = (Datum.ofMap Datum.ofValue vars).layout :=
  putMap_eq_layout putValue_eq_layout vars

theorem putEvent_eq_layout (e : Event) : putEvent e = (Datum.ofEvent e).layout := by
  simp only [putEvent, Datum.ofEvent, Datum.layout, Datum.layouts,
    ← putOption_eq_layout putText_eq_layout, ← putOption_eq_layout putValue_eq_layout, putKind,
    putNumber_eq_littleEndian, putText_eq_textLayout, List.append_assoc, List.append_nil]

theorem toBytes_eq_layout (snap : Snapshot) : snap.toBytes = (Datum.ofSnapshot snap).layout := by
  simp only [toBytes, Datum.ofSnapshot, Datum.layout, Datum.layouts,
    ← putOption_eq_layout putText_eq_layout, ← putTexts_eq_layout,
    ← putMap_eq_layout putTexts_eq_layout, ← putVars_eq_layout,
    ← putMap_eq_layout putVars_eq_layout, ← putList_eq_layout putEvent_eq_layout, putBool,
    putNumber_eq_littleEndian, putText_eq_textLayout, List.append_assoc, List.append_nil]

/-- A snapshot of the present version is read back from its bytes exactly if its timestamp is read
back from its text. -/
theorem ofBytes_toBytes {snap : Snapshot} (hversion : snap.version = currentVersion)
    (hvalues : ∀ v ∈ snap.values, Json.Value.read v.compact = some v)
    (hsize : snap.toBytes.length < 2 ^ 64) :
    ofBytes snap.toBytes = .ok snap ↔
      Timestamp.parse? snap.stamp.timestamp.render = some snap.stamp.timestamp := by
  have htake := take_toBytes hvalues hsize []
  rw [List.append_nil] at htake
  rw [ofBytes, htake]
  cases Timestamp.parse? snap.stamp.timestamp.render with
  | none => simp
  | some read =>
    have hstamp : ({ snap with stamp := ⟨snap.stamp.id, read⟩ } : Snapshot) = snap ↔
        read = snap.stamp.timestamp := by
      obtain ⟨version, ⟨id, timestamp⟩⟩ := snap
      simp
    have hcheck : ({ snap with stamp := ⟨snap.stamp.id, read⟩ } : Snapshot).checkVersion = .ok () :=
      if_pos hversion
    simp only [Option.map_some, hcheck, Except.map, Except.ok.injEq, hstamp, Option.some.injEq]

/-- A snapshot of the present version is read back from its bytes, present payloads that are null
included, exactly if its timestamp lies in no leap second but the last second of a minute, and
the bytes are those of its parts one after the other. What is needed is that the values in it are
read back from their texts, that its timestamp is within bounds, and that the bytes can be counted
by a number of eight bytes. -/
theorem ofBytes_toBytes_iff {snap : Snapshot} (hversion : snap.version = currentVersion)
    (hstamp : snap.stamp.timestamp.InRange)
    (hvalues : ∀ v ∈ snap.values, Json.Value.read v.compact = some v)
    (hsize : snap.toBytes.length < 2 ^ 64) :
    (ofBytes snap.toBytes = .ok snap ↔ snap.stamp.timestamp.LeapsAtMinute) ∧
      snap.toBytes = (Datum.ofSnapshot snap).layout :=
  ⟨(ofBytes_toBytes hversion hvalues hsize).trans hstamp.parse?_render_iff,
    toBytes_eq_layout snap⟩

/-- A snapshot in which an event waits that carries null. -/
def waiting : Snapshot where
  version := currentVersion
  stamp := ⟨"evening", ⟨19000, 86399, 1500000000⟩⟩
  chart := some "player"
  sessionId := "second"
  running := true
  active := ["power", "on"]
  histories := .ofList [("resume", ["playing", "muted"])]
  completed := []
  invokes := ∅
  pendingInvokes := []
  global := .ofList [("volume", .int 11)]
  contexts := ∅
  internalEvents := [{ Event.signal "alarm" with data := some .null }]
  sequence := 3

theorem read_values_waiting (v : Json.Value) (hv : v ∈ waiting.values) :
    Json.Value.read v.compact = some v := by
  have hlist : waiting.values = [.int 11, .null] := rfl
  rw [hlist] at hv
  rcases List.mem_pair.1 hv with rfl | rfl
  · rfl
  · rfl

theorem ofBytes_toBytes_waiting :
    ofBytes waiting.toBytes = .ok waiting ∧
      waiting.toBytes = (Datum.ofSnapshot waiting).layout := by
  have hstamp : waiting.stamp.timestamp.InRange := ⟨by decide +kernel, by decide, by decide⟩
  have hleap : waiting.stamp.timestamp.LeapsAtMinute := fun _ => rfl
  obtain ⟨hread, hlayout⟩ :=
    ofBytes_toBytes_iff rfl hstamp read_values_waiting (by decide +kernel)
  exact ⟨hread.2 hleap, hlayout⟩

/-- A snapshot that bears a leap second within a minute. -/
def drawnOut : Snapshot :=
  { waiting with stamp := ⟨"evening", ⟨19000, 10, 1500000000⟩⟩ }

/-- A leap second within a minute is written as the second after it, and is read back as that. -/
theorem exists_stamp_lost : ¬ ∀ snap : Snapshot, snap.version = currentVersion →
    snap.stamp.timestamp.InRange →
    (∀ v ∈ snap.values, Json.Value.read v.compact = some v) → snap.toBytes.length < 2 ^ 64 →
    ofBytes snap.toBytes = .ok snap := by
  intro h
  have hstamp : drawnOut.stamp.timestamp.InRange := ⟨by decide +kernel, by decide, by decide⟩
  have hvalues : ∀ v ∈ drawnOut.values, Json.Value.read v.compact = some v := read_values_waiting
  have hsize : drawnOut.toBytes.length < 2 ^ 64 := by decide +kernel
  have hread := (ofBytes_toBytes rfl hvalues hsize).1 (h drawnOut rfl hstamp hvalues hsize)
  have hleap : drawnOut.stamp.timestamp.second % 60 = 59 :=
    hstamp.parse?_render_iff.1 hread (by decide)
  exact absurd hleap (by decide)

end Snapshot

end Statechart
