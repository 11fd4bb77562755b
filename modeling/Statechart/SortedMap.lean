/-!
Finite maps held as the list of their entries in ascending order of the keys, each key at
most once. What is read from a map does not depend on the order in which it was filled, and
every walk through a map is in the order of the keys.
-/

namespace Statechart

/-- The entries with `key` bound to `value`: an earlier binding is replaced. -/
def placeEntry {κ α : Type} [LT κ] [DecidableLT κ] (key : κ) (value : α) :
    List (κ × α) → List (κ × α)
  | [] => [(key, value)]
  | e :: rest =>
    if key < e.1 then (key, value) :: e :: rest
    else if e.1 < key then e :: placeEntry key value rest
    else (key, value) :: rest

/-- The value bound to `key`, if any. -/
def findEntry {κ α : Type} [DecidableEq κ] (key : κ) : List (κ × α) → Option α
  | [] => none
  | e :: rest => if e.1 = key then some e.2 else findEntry key rest

section Entries

variable {κ α : Type} [LT κ] [DecidableLT κ]

theorem mem_placeEntry {e : κ × α} {key : κ} {value : α} {entries : List (κ × α)}
    (h : e ∈ placeEntry key value entries) : e = (key, value) ∨ e ∈ entries := by
  induction entries with
  | nil => simpa [placeEntry] using h
  | cons x rest ih =>
    simp only [placeEntry] at h
    split at h
    · simpa using h
    · split at h
      · rcases List.mem_cons.1 h with h | h
        · exact .inr (by simp [h])
        · exact (ih h).imp_right (List.mem_cons_of_mem _)
      · rcases List.mem_cons.1 h with h | h
        · exact .inl h
        · exact .inr (List.mem_cons_of_mem _ h)

variable [LE κ] [Std.IsLinearOrder κ] [Std.LawfulOrderLT κ]

theorem placeEntry_ascending {key : κ} {value : α} {entries : List (κ × α)}
    (h : entries.Pairwise (·.1 < ·.1)) : (placeEntry key value entries).Pairwise (·.1 < ·.1) := by
  induction entries with
  | nil => simp [placeEntry]
  | cons x rest ih =>
    have hx : ∀ {a : κ × α}, a ∈ rest → x.1 < a.1 := List.rel_of_pairwise_cons h
    simp only [placeEntry]
    split
    · next hlt =>
      refine List.pairwise_cons.2 ⟨?_, h⟩
      intro a ha
      rcases List.mem_cons.1 ha with rfl | ha
      · exact hlt
      · exact Std.lt_trans hlt (hx ha)
    · next hnot =>
      split
      · next hlt =>
        refine List.pairwise_cons.2 ⟨?_, ih h.of_cons⟩
        intro a ha
        rcases mem_placeEntry ha with rfl | ha
        · exact hlt
        · exact hx ha
      · next hnot' =>
        have hkey : key = x.1 := by
          rcases Std.lt_trichotomy key x.1 with hlt | heq | hlt
          · exact absurd hlt hnot
          · exact heq
          · exact absurd hlt hnot'
        refine List.pairwise_cons.2 ⟨?_, h.of_cons⟩
        intro a ha
        rw [hkey]
        exact hx ha

end Entries

/-- A map from `κ` to `α`, its entries in ascending order of the keys. -/
structure SortedMap (κ α : Type) [LT κ] where
  entries : List (κ × α)
  ascending : entries.Pairwise (·.1 < ·.1)

namespace SortedMap

variable {κ α : Type} [LT κ]

instance [DecidableEq κ] [DecidableEq α] : DecidableEq (SortedMap κ α) := fun m n =>
  decidable_of_iff (m.entries = n.entries) (by cases m; cases n; simp)

def empty : SortedMap κ α := ⟨[], .nil⟩

instance : EmptyCollection (SortedMap κ α) := ⟨empty⟩
instance : Inhabited (SortedMap κ α) := ⟨empty⟩

def get? [DecidableEq κ] (m : SortedMap κ α) (key : κ) : Option α :=
  findEntry key m.entries

def contains [DecidableEq κ] (m : SortedMap κ α) (key : κ) : Bool :=
  (m.get? key).isSome

def keys (m : SortedMap κ α) : List κ :=
  m.entries.map Prod.fst

def isEmpty (m : SortedMap κ α) : Bool :=
  m.entries.isEmpty

def size (m : SortedMap κ α) : Nat :=
  m.entries.length

def erase [DecidableEq κ] (m : SortedMap κ α) (key : κ) : SortedMap κ α :=
  ⟨m.entries.filter (fun e => decide (e.1 ≠ key)), m.ascending.filter _⟩

section Insert

variable [DecidableLT κ] [LE κ] [Std.IsLinearOrder κ] [Std.LawfulOrderLT κ]

/-- The map with `key` bound to `value`, whatever it was bound to before. -/
def insert (m : SortedMap κ α) (key : κ) (value : α) : SortedMap κ α :=
  ⟨placeEntry key value m.entries, placeEntry_ascending m.ascending⟩

/-- The map with every entry inserted in turn: of two entries with one key the later stays. -/
def insertAll (m : SortedMap κ α) (entries : List (κ × α)) : SortedMap κ α :=
  entries.foldl (fun m e => m.insert e.1 e.2) m

def ofList (entries : List (κ × α)) : SortedMap κ α :=
  empty.insertAll entries

end Insert

section Lemmas

variable [DecidableEq κ]

@[simp] theorem get?_empty (key : κ) : (∅ : SortedMap κ α).get? key = none := rfl

omit [LT κ] in
theorem findEntry_filter_ne {key other : κ} (entries : List (κ × α)) :
    findEntry other (entries.filter (fun e => decide (e.1 ≠ key))) =
      if other = key then none else findEntry other entries := by
  induction entries with
  | nil => simp [findEntry]
  | cons e rest ih =>
    by_cases he : e.1 = key <;> by_cases ho : e.1 = other <;> grind [findEntry]

theorem get?_erase (m : SortedMap κ α) (key other : κ) :
    (m.erase key).get? other = if other = key then none else m.get? other :=
  findEntry_filter_ne m.entries

variable [DecidableLT κ] [LE κ] [Std.IsLinearOrder κ] [Std.LawfulOrderLT κ]

theorem get?_insert (m : SortedMap κ α) (key other : κ) (value : α) :
    (m.insert key value).get? other = if other = key then some value else m.get? other := by
  change findEntry other (placeEntry key value m.entries) = _
  simp only [get?]
  induction m.entries with
  | nil => simp only [placeEntry, findEntry]; grind
  | cons e rest ih =>
    simp only [placeEntry]
    split
    · simp only [findEntry]; grind
    · next hnot =>
      split
      · next hlt =>
        have hne : e.1 ≠ key := fun h => Std.lt_irrefl (h ▸ hlt)
        simp only [findEntry, ih]; grind
      · next hnot' =>
        have hkey : key = e.1 := by
          rcases Std.lt_trichotomy key e.1 with hlt | heq | hlt
          · exact absurd hlt hnot
          · exact heq
          · exact absurd hlt hnot'
        simp only [findEntry]; grind

end Lemmas

end SortedMap

end Statechart
