import Statechart.Json.Record
import Statechart.Proofs.Collections
import Statechart.Proofs.Json.Reading

/-!
Values and their texts. A value whose numbers are integers is read back from its tree as it is
printed, as long as containers are not nested deeper than the reader allows; otherwise it is not
read at all.
-/

namespace Statechart.Json

theorem textOf?_unit {value : Nat} (h : value < 0xD800) (rest : List Piece) :
    textOf? (.unit value :: rest) = (textOf? rest).map (Char.ofNat value :: ·) := by
  have hhigh : ¬ (0xD800 ≤ value ∧ value < 0xDC00) := by omega
  have hlow : ¬ (0xDC00 ≤ value ∧ value < 0xE000) := by omega
  rw [textOf?.eq_def]
  simp only [hhigh, hlow, if_false]

/-- Texts are read back whole: a control may come back as a unit, which stands for it. -/
theorem textOf?_scanned (cs : List Char) :
    textOf? ((cs.map Piece.char).map Piece.scanned) = some cs := by
  induction cs with
  | nil => rfl
  | cons c cs ih =>
    rw [List.map_cons, List.map_cons, Piece.scanned]
    split
    · next hlow =>
      rw [textOf?_unit (by omega), ih, Char.ofNat_toNat]
      rfl
    · rw [textOf?, ih]
      rfl

namespace Numeral

theorem ofNat_eq_ofInt (n : Nat) : ofNat n = ofInt n := by
  simp [ofNat, ofInt]

/-- An integer of 64 bits, signed or unsigned, is the number of its numeral. -/
theorem number?_ofInt {i : Int} (hlow : -2 ^ 63 ≤ i) (hhigh : i < 2 ^ 64) :
    (ofInt i).number? = some (.int i) := by
  have hvalue : Nat.ofDigitChars 10 (ofInt i).whole 0 = i.natAbs :=
    Nat.ofDigitChars_toDigits (by decide) (by decide)
  have hfraction : ((ofInt i).fraction.isEmpty && (ofInt i).exponent.isNone) = true := rfl
  rw [number?, if_pos hfraction, hvalue]
  by_cases h : i < 0
  · have hnegative : (ofInt i).negative = true := by simp [ofInt, h]
    have hback : -(i.natAbs : Int) = i := by omega
    have hrange : 0 < i.natAbs ∧ i.natAbs ≤ Nat.pow 2 63 := by
      simp only [Nat.pow_eq]
      omega
    rw [if_neg (by simp [hnegative]), if_pos (by simp only [hnegative, hrange]; decide), hback]
  · have hnegative : (ofInt i).negative = false := by simp [ofInt, h]
    have hback : (i.natAbs : Int) = i := by omega
    have hrange : i.natAbs < UInt64.size := by
      have hsize : UInt64.size = 2 ^ 64 := rfl
      omega
    rw [if_pos (by simp [hnegative, hrange]), hback]

theorem unsigned?_ofNat {n bound : Nat} (h : n < bound) : (ofNat n).unsigned? bound = some n := by
  have hvalue : Nat.ofDigitChars 10 (ofNat n).whole 0 = n :=
    Nat.ofDigitChars_toDigits (by decide) (by decide)
  have hplain : ((ofNat n).negative || !(ofNat n).fraction.isEmpty ||
      (ofNat n).exponent.isSome) = false := rfl
  rw [unsigned?, if_neg (by simp [hplain]), hvalue, if_pos h]

end Numeral

namespace Value

/-- Every number in the value is an integer of 64 bits, signed or unsigned, and the members of
every object are in the order of their keys. -/
inductive Integral : Value → Prop where
  | null : Integral .null
  | bool (b : Bool) : Integral (.bool b)
  | int {i : Int} (low : -2 ^ 63 ≤ i) (high : i < 2 ^ 64) : Integral (.number (.int i))
  | text (s : String) : Integral (.text s)
  | list {xs : List Value} (items : ∀ x ∈ xs, Integral x) : Integral (.list xs)
  | object {ms : List (String × Value)} (ascending : ms.Pairwise (·.1 < ·.1))
    (values : ∀ m ∈ ms, Integral m.2) : Integral (.object ms)

mutual
/-- How deep containers are nested in a value. -/
def depth : Value → Nat
  | .null => 0
  | .bool _ => 0
  | .number _ => 0
  | .text _ => 0
  | .list xs => itemsDepth xs + 1
  | .object ms => membersDepth ms + 1
def itemsDepth : List Value → Nat
  | [] => 0
  | x :: xs => max (depth x) (itemsDepth xs)
def membersDepth : List (String × Value) → Nat
  | [] => 0
  | (_, x) :: ms => max (depth x) (membersDepth ms)
end

theorem toTrees_eq_map (xs : List Value) : toTrees xs = xs.map toTree := by
  induction xs with
  | nil => rfl
  | cons x xs ih => rw [toTrees, ih, List.map_cons]

theorem toMembers_eq_map (ms : List (String × Value)) :
    toMembers ms = ms.map fun m => (piecesOf m.1, m.2.toTree) := by
  induction ms with
  | nil => rfl
  | cons m ms ih => rw [toMembers, ih, List.map_cons]

theorem plain_toTree {v : Value} (h : v.Integral) : v.toTree.Plain := by
  induction h with
  | null => exact .null
  | bool b => exact .bool b
  | int _ _ => exact .number _
  | text s => exact .text s.toList
  | @list xs _ ih =>
    rw [toTree, toTrees_eq_map]
    refine .list fun tree htree => ?_
    obtain ⟨x, hx, rfl⟩ := List.mem_map.1 htree
    exact ih x hx
  | @object ms _ _ ih =>
    rw [toTree, toMembers_eq_map]
    refine .object (fun m hm => ?_) (fun m hm => ?_)
    · obtain ⟨n, -, rfl⟩ := List.mem_map.1 hm
      exact ⟨n.1.toList, rfl⟩
    · obtain ⟨n, hn, rfl⟩ := List.mem_map.1 hm
      exact ih n hn

/-- An object keeps members that are in the order of their keys. -/
theorem ofMembers_of_ascending {ms : List (String × Value)} (h : ms.Pairwise (·.1 < ·.1)) :
    ofMembers ms = .object ms := by
  have hentries : ∀ m : SortedMap String Value, (m.insertAll ms).entries =
      ms.foldl (fun placed m => placeEntry m.1 m.2 placed) m.entries := by
    clear h
    induction ms with
    | nil => exact fun _ => rfl
    | cons e ms ih => exact fun m => ih (m.insert e.1 e.2)
  have hmap : SortedMap.ofList ms = ⟨ms, h⟩ := SortedMap.ofList_of_perm (.refl _)
  exact congrArg Value.object ((hentries ∅).symm.trans (congrArg SortedMap.entries hmap))

/-- A container is read if there is room for it and for what is in it. -/
theorem map_within {α β : Type} {a : α} {depth room : Nat} (f : α → β) :
    (if room = 0 then none else (if depth ≤ room - 1 then some a else none).map f) =
      if depth + 1 ≤ room then some (f a) else none := by
  by_cases hroom : room = 0
  · rw [if_pos hroom, if_neg (by omega)]
  · by_cases hdepth : depth + 1 ≤ room
    · rw [if_neg hroom, if_pos hdepth, if_pos (by omega), Option.map_some]
    · rw [if_neg hroom, if_neg hdepth, if_neg (by omega), Option.map_none]

theorem ofTrees?_scanned {xs : List Value} {room : Nat}
    (h : ∀ x ∈ xs, ofTree? room x.toTree.scanned = if x.depth ≤ room then some x else none) :
    ofTrees? room (Tree.scannedItems (toTrees xs)) =
      if itemsDepth xs ≤ room then some xs else none := by
  induction xs with
  | nil => rfl
  | cons x xs ih =>
    rw [toTrees, Tree.scannedItems, ofTrees?, h x (by simp),
      ih (fun y hy => h y (List.mem_cons_of_mem x hy)), itemsDepth]
    by_cases hx : x.depth ≤ room <;> by_cases hxs : itemsDepth xs ≤ room <;> simp [hx, hxs]

theorem ofMembers?_scanned {ms : List (String × Value)} {room : Nat}
    (h : ∀ m ∈ ms, ofTree? room m.2.toTree.scanned =
      if m.2.depth ≤ room then some m.2 else none) :
    ofMembers? room (Tree.scannedMembers (toMembers ms)) =
      if membersDepth ms ≤ room then some ms else none := by
  induction ms with
  | nil => rfl
  | cons m ms ih =>
    rw [toMembers, Tree.scannedMembers, ofMembers?, h m (by simp),
      ih (fun n hn => h n (List.mem_cons_of_mem m hn)), membersDepth, piecesOf, textOf?_scanned]
    by_cases hm : m.2.depth ≤ room <;> by_cases hms : membersDepth ms ≤ room <;> simp [hm, hms]

/-- A value is read from its tree as it is printed, if containers may be nested as deep. -/
theorem ofTree?_scanned {v : Value} (h : v.Integral) (room : Nat) :
    ofTree? room v.toTree.scanned = if v.depth ≤ room then some v else none := by
  induction h generalizing room with
  | null => simp [toTree, Tree.scanned, ofTree?, depth]
  | bool b => simp [toTree, Tree.scanned, ofTree?, depth]
  | int low high =>
    simp [toTree, Tree.scanned, ofTree?, depth, Number.numeral, Numeral.number?_ofInt low high]
  | text s =>
    simp only [toTree, Tree.scanned, ofTree?, depth, piecesOf, textOf?_scanned]
    simp
  | @list xs _ ih =>
    rw [toTree, Tree.scanned, ofTree?, depth, ofTrees?_scanned (fun x hx => ih x hx (room - 1))]
    exact map_within _
  | @object ms ascending _ ih =>
    rw [toTree, Tree.scanned, ofTree?, depth,
      ofMembers?_scanned (fun m hm => ih m hm (room - 1)), ← ofMembers_of_ascending ascending]
    exact map_within _

/-- A value is read back from its text, unless it is nested too deep. -/
theorem read_compact {v : Value} (h : v.Integral) :
    read v.compact = if v.depth ≤ nestingLimit then some v else none := by
  rw [read, compact, Tree.read_compact (plain_toTree h)]
  exact ofTree?_scanned h nestingLimit

end Value

namespace Reader

theorem text_scanned (s : String) (room : Nat) :
    text room (Tree.text (piecesOf s)).scanned = some s := by
  rw [Tree.scanned, text, piecesOf, textOf?_scanned, Option.map_some, String.ofList_toList]

theorem unsigned_scanned {n bound : Nat} (h : n < bound) (room : Nat) :
    unsigned bound room (Tree.number (.ofNat n)).scanned = some n :=
  Numeral.unsigned?_ofNat h

/-- Of several trees all are read or none. -/
theorem mapM_within {α β γ : Type} {f : γ → Option β} {written : α → γ} {result : α → β}
    {fits : α → Prop} [DecidablePred fits] {xs : List α}
    (h : ∀ x ∈ xs, f (written x) = if fits x then some (result x) else none) :
    (xs.map written).mapM f = if ∀ x ∈ xs, fits x then some (xs.map result) else none := by
  induction xs with
  | nil => rfl
  | cons x xs ih =>
    rw [List.map_cons, List.mapM_cons, h x (by simp),
      ih (fun y hy => h y (List.mem_cons_of_mem x hy))]
    by_cases hx : fits x
    · rw [if_pos hx]
      by_cases hxs : ∀ y ∈ xs, fits y
      · rw [if_pos hxs, if_pos (List.forall_mem_cons.2 ⟨hx, hxs⟩)]
        rfl
      · rw [if_neg hxs, if_neg (fun hall => hxs (List.forall_mem_cons.1 hall).2)]
        rfl
    · rw [if_neg hx, if_neg (fun hall => hx (List.forall_mem_cons.1 hall).1)]
      rfl

section Collections

variable {α β : Type} {room : Nat}

/-- A list is read if each of its items is. -/
theorem list_scanned {reader : Reader β} {tree : α → Tree} {result : α → β} {fits : α → Prop}
    [DecidablePred fits] {xs : List α} (hroom : room ≠ 0)
    (h : ∀ x ∈ xs, reader (room - 1) (tree x).scanned =
      if fits x then some (result x) else none) :
    list reader room (Tree.list (xs.map tree)).scanned =
      if ∀ x ∈ xs, fits x then some (xs.map result) else none := by
  rw [Tree.scanned, Tree.scannedItems_eq_map, list, if_neg hroom, List.map_map]
  exact mapM_within h

/-- A map is read if each of its values is. -/
theorem map_scanned {reader : Reader α} (tree : α → Tree) (fits : α → Prop)
    [DecidablePred fits] {m : SortedMap String α} (hroom : room ≠ 0)
    (h : ∀ e ∈ m.entries, reader (room - 1) (tree e.2).scanned =
      if fits e.2 then some e.2 else none) :
    map reader room
        (Tree.object (m.entries.map (fun e => (piecesOf e.1, tree e.2)))).scanned =
      if ∀ e ∈ m.entries, fits e.2 then some m else none := by
  let entry : List Piece × Tree → Option (String × α) := fun n => do
    let key ← textOf? n.1
    let value ← reader (room - 1) n.2
    some (String.ofList key, value)
  have hentry : ∀ e ∈ m.entries, entry ((piecesOf e.1).map Piece.scanned, (tree e.2).scanned) =
      if fits e.2 then some (id e) else none := by
    intro e he
    simp only [entry, piecesOf, textOf?_scanned, h e he]
    by_cases hfits : fits e.2 <;> simp [hfits]
  have hentries := mapM_within hentry
  rw [Tree.scanned, Tree.scannedMembers_eq_map, List.map_map, map, if_neg hroom]
  refine (congrArg (· >>= _) hentries).trans ?_
  split
  · rw [List.map_id]
    exact congrArg some (SortedMap.ofList_of_perm (.refl m.entries))
  · rfl

end Collections

end Reader

namespace Fields

theorem ofMembers?_scanned {names written : List String} (hwritten : written.Nodup)
    (hnames : ∀ name ∈ written, name ∈ names) (trees : List Tree) :
    ofMembers? names (Tree.scannedMembers ((written.map piecesOf).zip trees)) =
      some (written.zip (trees.map Tree.scanned)) := by
  induction written generalizing trees with
  | nil => rfl
  | cons name written ih =>
    rw [List.nodup_cons] at hwritten
    cases trees with
    | nil => rfl
    | cons tree trees =>
      have hothers := ih hwritten.2 (fun n hn => hnames n (List.mem_cons_of_mem name hn)) trees
      have hfresh : (written.zip (trees.map Tree.scanned)).any
          (fun f => decide (f.1 = name)) = false := by
        rw [List.any_eq_false]
        rintro ⟨n, t⟩ hf
        have hn : n ∈ written := (List.of_mem_zip hf).1
        rw [decide_eq_true_eq]
        rintro rfl
        exact hwritten.1 hn
      rw [List.map_cons, List.zip_cons_cons, Tree.scannedMembers, ofMembers?, piecesOf,
        textOf?_scanned, hothers]
      simp [hnames name (by simp), hfresh]

/-- The fields of a record that is written in full are all found. -/
theorem ofTree?_scanned (names : List String) (h : names.Nodup) (trees : List Tree) :
    ofTree? names (Tree.object ((names.map piecesOf).zip trees)).scanned =
      some (names.zip (trees.map Tree.scanned)) :=
  ofMembers?_scanned h (fun _ hn => hn) trees

theorem findEntry_zip {names : List String} (h : names.Nodup) {trees : List Tree} {i : Nat}
    {name : String} {tree : Tree} (hname : names[i]? = some name) (htree : trees[i]? = some tree) :
    findEntry name (names.zip trees) = some tree := by
  induction names generalizing trees i with
  | nil => simp at hname
  | cons first names ih =>
    rw [List.nodup_cons] at h
    cases trees with
    | nil => simp at htree
    | cons t trees =>
      rw [List.zip_cons_cons, findEntry]
      cases i with
      | zero => simp_all
      | succ i =>
        rw [List.getElem?_cons_succ] at hname htree
        have hne : first ≠ name := by
          rintro rfl
          exact h.1 (List.mem_of_getElem? hname)
        rw [if_neg hne]
        exact ih h.2 hname htree

section Record

variable {α β : Type} {names : List String} {trees : List Tree} {name : String} {tree : Tree}

/-- The field in the place `i` of a record that is written in full is read there. -/
theorem required?_record (h : names.Nodup) (i : Nat) (hname : names[i]? = some name)
    (htree : trees[i]? = some tree) (reader : Reader α) (room : Nat) :
    required? (names.zip (trees.map Tree.scanned)) name reader room = reader room tree.scanned := by
  rw [required?, findEntry_zip h hname (by rw [List.getElem?_map, htree]; rfl), Option.bind_some]

theorem orElse?_record (h : names.Nodup) (i : Nat) (hname : names[i]? = some name)
    (htree : trees[i]? = some tree) (default : α) (reader : Reader α) (room : Nat) :
    orElse? (names.zip (trees.map Tree.scanned)) name default reader room =
      reader room tree.scanned := by
  rw [orElse?, findEntry_zip h hname (by rw [List.getElem?_map, htree]; rfl)]

/-- What follows a field that is read goes on with what it holds. -/
theorem bind_required? (h : names.Nodup) (i : Nat) (hname : names[i]? = some name)
    (htree : trees[i]? = some tree) {reader : Reader α} {room : Nat} {a : α}
    (hread : reader room tree.scanned = some a) (next : α → Option β) :
    required? (names.zip (trees.map Tree.scanned)) name reader room >>= next = next a := by
  rw [required?_record h i hname htree, hread]
  rfl

theorem bind_required?_eq_none (h : names.Nodup) (i : Nat) (hname : names[i]? = some name)
    (htree : trees[i]? = some tree) {reader : Reader α} {room : Nat}
    (hread : reader room tree.scanned = none) (next : α → Option β) :
    required? (names.zip (trees.map Tree.scanned)) name reader room >>= next = none := by
  rw [required?_record h i hname htree, hread]
  rfl

theorem bind_orElse? (h : names.Nodup) (i : Nat) (hname : names[i]? = some name)
    (htree : trees[i]? = some tree) {default : α} {reader : Reader α} {room : Nat} {a : α}
    (hread : reader room tree.scanned = some a) (next : α → Option β) :
    orElse? (names.zip (trees.map Tree.scanned)) name default reader room >>= next = next a := by
  rw [orElse?_record h i hname htree, hread]
  rfl

end Record

end Fields

end Statechart.Json
