import Mathlib.Data.List.Perm.Subperm
import Mathlib.Data.List.Sort
import Mathlib.Data.Nat.Init
import Statechart.SortedMap
import Statechart.StateSet

/-!
Maps and sets as their members show them: a map is determined by its bindings, and what an
insertion of many entries leaves bound can be read off the entries.
-/

namespace Statechart

theorem nodup_eraseDups (xs : List Nat) : xs.eraseDups.Nodup := by
  -- Induction on the length: what is left of the tail may be shorter than it.
  induction hn : xs.length using Nat.strong_induction_on generalizing xs with
  | _ n ih =>
    cases xs with
    | nil => exact .nil
    | cons x rest =>
      have hlength := List.length_filter_le (fun y => !y == x) rest
      rw [List.eraseDups_cons, List.nodup_cons, List.mem_eraseDups, List.mem_filter]
      refine ⟨by simp, ih _ ?_ _ rfl⟩
      rw [← hn, List.length_cons]
      omega

/-- Repetitions may be removed before or after a choice among the members. -/
theorem eraseDups_filter (p : Nat → Bool) (xs : List Nat) :
    (xs.filter p).eraseDups = xs.eraseDups.filter p := by
  induction hn : xs.length using Nat.strong_induction_on generalizing xs with
  | _ n ih =>
    cases xs with
    | nil => rfl
    | cons x rest =>
      have hshorter : (rest.filter (fun y => !y == x)).length < n := by
        have hlength := List.length_filter_le (fun y => !y == x) rest
        rw [← hn, List.length_cons]
        omega
      have hrest := ih _ hshorter (rest.filter (fun y => !y == x)) rfl
      rw [List.eraseDups_cons]
      by_cases hx : p x = true
      · rw [List.filter_cons_of_pos hx, List.filter_cons_of_pos hx, List.eraseDups_cons, ← hrest,
          List.filter_comm]
      · rw [List.filter_cons_of_neg hx, List.filter_cons_of_neg hx, ← hrest, List.filter_comm]
        congr 1
        refine (List.filter_eq_self.2 fun y hy => ?_).symm
        have hne : y ≠ x := fun h => hx (h ▸ (List.mem_filter.1 hy).2)
        simpa using hne

namespace SortedMap

section Bindings

variable {κ α : Type} [LT κ] [LE κ] [Std.LawfulOrderLT κ]

theorem keys_nodup (m : SortedMap κ α) : m.keys.Nodup := by
  rw [keys, List.Nodup, List.pairwise_map]
  apply m.ascending.imp
  intro a b hab heq
  rw [heq] at hab
  exact Std.lt_irrefl hab

variable [DecidableEq κ]

theorem findEntry_eq_some_iff {entries : List (κ × α)} (h : entries.Pairwise (·.1 < ·.1))
    {key : κ} {value : α} : findEntry key entries = some value ↔ (key, value) ∈ entries := by
  induction entries with
  | nil => simp [findEntry]
  | cons e rest ih =>
    have he : ∀ {x : κ × α}, x ∈ rest → e.1 < x.1 := List.rel_of_pairwise_cons h
    simp only [findEntry, List.mem_cons]
    split
    · next hkey =>
      constructor
      · intro hv
        left
        rw [← hkey, ← Option.some.inj hv]
      · rintro (hv | hv)
        · rw [← hv]
        · exact absurd (he hv) (by rw [hkey]; exact Std.lt_irrefl)
    · next hkey =>
      rw [ih h.of_cons]
      constructor
      · exact .inr
      · rintro (hv | hv)
        · rw [← hv] at hkey
          exact absurd rfl hkey
        · exact hv

theorem mem_entries_iff {m : SortedMap κ α} {key : κ} {value : α} :
    (key, value) ∈ m.entries ↔ m.get? key = some value :=
  (findEntry_eq_some_iff m.ascending).symm

theorem mem_keys_iff {m : SortedMap κ α} {key : κ} : key ∈ m.keys ↔ (m.get? key).isSome := by
  simp only [keys, List.mem_map, Option.isSome_iff_exists]
  constructor
  · rintro ⟨e, he, rfl⟩
    exact ⟨e.2, mem_entries_iff.1 he⟩
  · rintro ⟨v, hv⟩
    exact ⟨(key, v), mem_entries_iff.2 hv, rfl⟩

/-- Maps with the same bindings are the same. -/
theorem ext_get? [Std.IsLinearOrder κ] {m n : SortedMap κ α}
    (h : ∀ key, m.get? key = n.get? key) : m = n := by
  have hmem : ∀ e, e ∈ m.entries ↔ e ∈ n.entries := by
    rintro ⟨key, value⟩
    rw [mem_entries_iff, mem_entries_iff, h]
  have hperm : m.entries.Perm n.entries :=
    (List.perm_ext_iff_of_nodup m.keys_nodup.of_map n.keys_nodup.of_map).2 hmem
  have hentries : m.entries = n.entries := by
    refine hperm.eq_of_pairwise ?_ m.ascending n.ascending
    intro a b _ _ hab hba
    exact absurd (Std.lt_trans hab hba) Std.lt_irrefl
  cases m
  cases n
  simp_all

/-- A map that differs from another by one binding that this does not have. -/
theorem entries_perm_cons {m n : SortedMap κ α} {key : κ} {value : α} (hnew : n.get? key = none)
    (h : ∀ k, m.get? k = if k = key then some value else n.get? k) :
    m.entries.Perm ((key, value) :: n.entries) := by
  have hnot : (key, value) ∉ n.entries := by
    rw [mem_entries_iff, hnew]
    exact nofun
  apply (List.perm_ext_iff_of_nodup m.keys_nodup.of_map
    (List.nodup_cons.2 ⟨hnot, n.keys_nodup.of_map⟩)).2
  rintro ⟨k, v⟩
  rw [mem_entries_iff, List.mem_cons, mem_entries_iff, h, Prod.mk.injEq]
  split
  · next hk => simp [hk, hnew, eq_comm]
  · next hk => simp [hk]

theorem entries_perm_erase {m : SortedMap κ α} {key : κ} {value : α}
    (h : m.get? key = some value) : m.entries.Perm ((key, value) :: (m.erase key).entries) := by
  apply entries_perm_cons
  · rw [get?_erase, if_pos rfl]
  · intro k
    rw [get?_erase]
    split
    · next hk => rw [hk, h]
    · rfl

theorem entries_perm_insert [DecidableLT κ] [Std.IsLinearOrder κ] (m : SortedMap κ α) (key : κ)
    (value : α) : (m.insert key value).entries.Perm ((key, value) :: (m.erase key).entries) := by
  apply entries_perm_cons
  · rw [get?_erase, if_pos rfl]
  · intro k
    rw [get?_insert, get?_erase]
    split <;> rfl

end Bindings

section InsertAll

variable {κ α : Type} [LT κ] [DecidableLT κ] [LE κ] [Std.IsLinearOrder κ] [Std.LawfulOrderLT κ]

theorem insertAll_cons (m : SortedMap κ α) (e : κ × α) (rest : List (κ × α)) :
    m.insertAll (e :: rest) = (m.insert e.1 e.2).insertAll rest := rfl

variable [DecidableEq κ]

theorem get?_insertAll_of_not_mem {m : SortedMap κ α} {entries : List (κ × α)} {key : κ}
    (h : key ∉ entries.map Prod.fst) : (m.insertAll entries).get? key = m.get? key := by
  induction entries generalizing m with
  | nil => rfl
  | cons e rest ih =>
    simp only [List.map_cons, List.mem_cons, not_or] at h
    rw [insertAll_cons, ih h.2, get?_insert, if_neg h.1]

/-- Of entries whose keys are all different every one stays bound. -/
theorem get?_insertAll_of_mem {m : SortedMap κ α} {entries : List (κ × α)} {key : κ} {value : α}
    (hkeys : (entries.map Prod.fst).Nodup) (h : (key, value) ∈ entries) :
    (m.insertAll entries).get? key = some value := by
  induction entries generalizing m with
  | nil => simp at h
  | cons e rest ih =>
    rw [List.map_cons, List.nodup_cons] at hkeys
    rw [insertAll_cons]
    rcases List.mem_cons.1 h with rfl | h
    · rw [get?_insertAll_of_not_mem hkeys.1, get?_insert, if_pos rfl]
    · exact ih hkeys.2 h

theorem mem_of_get?_insertAll {m : SortedMap κ α} {entries : List (κ × α)} {key : κ} {value : α}
    (h : (m.insertAll entries).get? key = some value) :
    (key, value) ∈ entries ∨ m.get? key = some value := by
  induction entries generalizing m with
  | nil => exact .inr h
  | cons e rest ih =>
    rw [insertAll_cons] at h
    rcases ih h with hrest | hinsert
    · exact .inl (List.mem_cons_of_mem e hrest)
    · rw [get?_insert] at hinsert
      split at hinsert
      · next hkey =>
        obtain rfl := Option.some.inj hinsert
        exact .inl (by simp [hkey])
      · exact .inr hinsert

/-- Entries whose keys are all different are the bindings of the map made of them. -/
theorem get?_ofList {entries : List (κ × α)} (hkeys : (entries.map Prod.fst).Nodup) {key : κ}
    {value : α} : (ofList entries).get? key = some value ↔ (key, value) ∈ entries := by
  constructor
  · intro h
    exact (mem_of_get?_insertAll h).resolve_right (by simp [empty, get?, findEntry])
  · exact get?_insertAll_of_mem hkeys

theorem entries_ofList_perm {entries : List (κ × α)} (hkeys : (entries.map Prod.fst).Nodup) :
    (ofList entries).entries.Perm entries := by
  apply (List.perm_ext_iff_of_nodup (ofList entries).keys_nodup.of_map hkeys.of_map).2
  rintro ⟨key, value⟩
  rw [mem_entries_iff, get?_ofList hkeys]

/-- The entries of a map give that map again, in whatever order they are inserted. -/
theorem ofList_of_perm {m : SortedMap κ α} {entries : List (κ × α)}
    (h : entries.Perm m.entries) : ofList entries = m := by
  have hkeys : (entries.map Prod.fst).Nodup := (h.map Prod.fst).nodup_iff.2 m.keys_nodup
  apply ext_get?
  intro key
  apply Option.ext
  intro value
  rw [get?_ofList hkeys, h.mem_iff, mem_entries_iff]

end InsertAll

theorem eq_empty_of_isEmpty {κ α : Type} [LT κ] {m : SortedMap κ α} (h : m.isEmpty = true) :
    m = ∅ := by
  obtain ⟨entries, hascending⟩ := m
  obtain rfl : entries = [] := List.isEmpty_iff.1 h
  rfl

end SortedMap

namespace StateSet

theorem members_nodup (s : StateSet) : s.members.Nodup :=
  s.ascending.imp (fun h => Nat.ne_of_lt h)

/-- A set of at most one member, by its members. -/
theorem size_le_one_iff {s : StateSet} : s.size ≤ 1 ↔ ∀ x ∈ s, ∀ y ∈ s, x = y := by
  have hnodup := s.members_nodup
  simp only [size, mem_def]
  cases hs : s.members with
  | nil => simp
  | cons x rest =>
    cases rest with
    | nil => simp
    | cons y rest =>
      rw [hs, List.nodup_cons, List.mem_cons, not_or] at hnodup
      constructor
      · intro h
        simp at h
      · intro h
        exact absurd (h x (by simp) y (by simp)) hnodup.1.1

/-- A set drawn from a list without repetition holds all of it if it is not smaller. -/
theorem length_le_size_iff {s : StateSet} {xs : List Nat} (hxs : xs.Nodup)
    (hs : ∀ x ∈ s, x ∈ xs) : xs.length ≤ s.size ↔ ∀ x ∈ xs, x ∈ s := by
  constructor
  · intro hle x hx
    have hperm := (s.members_nodup.subperm hs).perm_of_length_le hle
    exact hperm.symm.subset hx
  · intro hall
    exact (hxs.subperm hall).length_le

theorem length_place {x : Nat} {xs : List Nat} (h : x ∉ xs) :
    (place x xs).length = xs.length + 1 := by
  induction xs with
  | nil => rfl
  | cons y rest ih =>
    simp only [List.mem_cons, not_or] at h
    simp only [place]
    split
    · rfl
    · rw [if_pos (by omega)]
      simp [ih h.2]

theorem size_insert {s : StateSet} {x : Nat} (h : x ∉ s) : (s.insert x).size = s.size + 1 :=
  length_place h

/-- A set of numbers below `n` that is not smaller than `n` holds all of them. -/
theorem mem_of_le_size {s : StateSet} {n : Nat} (hs : ∀ x ∈ s, x < n) (hsize : n ≤ s.size)
    {x : Nat} (hx : x < n) : x ∈ s := by
  have hsub : ∀ y ∈ s, y ∈ List.range n := fun y hy => List.mem_range.2 (hs y hy)
  refine (length_le_size_iff List.nodup_range hsub).1 ?_ x (List.mem_range.2 hx)
  rwa [List.length_range]

/-- A fold whose every step adds the members that `added` names, as long as `inv` holds of what
is collected so far. -/
theorem mem_foldl {collect : StateSet → Nat → StateSet} {added : Nat → Nat → Prop}
    {inv : StateSet → Prop} {states : List Nat}
    (hmem : ∀ known, ∀ s ∈ states, inv known →
      ∀ x, x ∈ collect known s ↔ x ∈ known ∨ added s x)
    (hinv : ∀ known, ∀ s ∈ states, inv known → inv (collect known s))
    {known : StateSet} (hknown : inv known) (x : Nat) :
    x ∈ states.foldl collect known ↔ x ∈ known ∨ ∃ s ∈ states, added s x := by
  induction states generalizing known with
  | nil => simp
  | cons s rest ih =>
    have hs : s ∈ s :: rest := by simp
    rw [List.foldl_cons, ih (fun known t ht => hmem known t (List.mem_cons_of_mem s ht))
      (fun known t ht => hinv known t (List.mem_cons_of_mem s ht)) (hinv known s hs hknown),
      hmem known s hs hknown]
    simp only [List.mem_cons, exists_eq_or_imp, or_assoc]

theorem mem_foldl_union {f : Nat → StateSet} {xs : List Nat} {s : StateSet} {x : Nat} :
    x ∈ xs.foldl (fun s y => s.union (f y)) s ↔ x ∈ s ∨ ∃ y ∈ xs, x ∈ f y := by
  induction xs generalizing s with
  | nil => simp
  | cons y rest ih => simp [ih, or_assoc]

end StateSet

end Statechart
