/-!
Finite sets of states. A state is named by its number in document order, and a set is the
ascending list of its members, so two sets with the same members are equal and every walk
through a set is in document order.
-/

namespace Statechart

/-- A set of state numbers, held in ascending order. -/
structure StateSet where
  members : List Nat
  ascending : members.Pairwise (· < ·)
  deriving DecidableEq

namespace StateSet

/-- The ascending list with `x` put in its place, unless it is there already. -/
def place (x : Nat) : List Nat → List Nat
  | [] => [x]
  | y :: rest => if x < y then x :: y :: rest else if y < x then y :: place x rest else y :: rest

theorem mem_place {a x : Nat} {xs : List Nat} : a ∈ place x xs ↔ a = x ∨ a ∈ xs := by
  induction xs with
  | nil => simp [place]
  | cons y rest ih =>
    simp only [place]
    split
    · simp
    · split
      · simp only [List.mem_cons, ih]; grind
      · have hxy : x = y := by omega
        simp only [List.mem_cons]; grind

theorem place_ascending {x : Nat} {xs : List Nat} (h : xs.Pairwise (· < ·)) :
    (place x xs).Pairwise (· < ·) := by
  induction xs with
  | nil => simp [place]
  | cons y rest ih =>
    have hy : ∀ {a}, a ∈ rest → y < a := List.rel_of_pairwise_cons h
    simp only [place]
    split
    · next hlt =>
      refine List.pairwise_cons.2 ⟨?_, h⟩
      intro a ha
      rcases List.mem_cons.1 ha with rfl | ha
      · exact hlt
      · exact Nat.lt_trans hlt (hy ha)
    · split
      · next hlt =>
        refine List.pairwise_cons.2 ⟨?_, ih h.of_cons⟩
        intro a ha
        rcases mem_place.1 ha with rfl | ha
        · exact hlt
        · exact hy ha
      · exact h

def empty : StateSet := ⟨[], .nil⟩

instance : EmptyCollection StateSet := ⟨empty⟩
instance : Inhabited StateSet := ⟨empty⟩
instance : Membership Nat StateSet := ⟨fun s x => x ∈ s.members⟩

instance (x : Nat) (s : StateSet) : Decidable (x ∈ s) :=
  inferInstanceAs (Decidable (x ∈ s.members))

def insert (s : StateSet) (x : Nat) : StateSet :=
  ⟨place x s.members, place_ascending s.ascending⟩

def filter (s : StateSet) (p : Nat → Bool) : StateSet :=
  ⟨s.members.filter p, s.ascending.filter p⟩

def erase (s : StateSet) (x : Nat) : StateSet :=
  s.filter (· != x)

def insertAll (s : StateSet) (xs : List Nat) : StateSet :=
  xs.foldl insert s

def ofList (xs : List Nat) : StateSet :=
  empty.insertAll xs

def union (s t : StateSet) : StateSet :=
  s.insertAll t.members

/-- The members of `s` that are not in `t`. -/
def diff (s t : StateSet) : StateSet :=
  s.filter (fun x => decide (x ∉ t))

def isDisjoint (s t : StateSet) : Bool :=
  s.members.all (fun x => decide (x ∉ t))

def isEmpty (s : StateSet) : Bool :=
  s.members.isEmpty

def size (s : StateSet) : Nat :=
  s.members.length

theorem mem_def {x : Nat} {s : StateSet} : x ∈ s ↔ x ∈ s.members := Iff.rfl

@[simp] theorem not_mem_empty (x : Nat) : x ∉ (∅ : StateSet) := by
  change x ∉ ([] : List Nat)
  simp

@[simp] theorem mem_insert {a x : Nat} {s : StateSet} : a ∈ s.insert x ↔ a = x ∨ a ∈ s :=
  mem_place

@[simp] theorem mem_filter {a : Nat} {s : StateSet} {p : Nat → Bool} :
    a ∈ s.filter p ↔ a ∈ s ∧ p a = true :=
  List.mem_filter

@[simp] theorem mem_erase {a x : Nat} {s : StateSet} : a ∈ s.erase x ↔ a ∈ s ∧ a ≠ x := by
  simp [erase]

@[simp] theorem mem_insertAll {a : Nat} {s : StateSet} {xs : List Nat} :
    a ∈ s.insertAll xs ↔ a ∈ s ∨ a ∈ xs := by
  induction xs generalizing s with
  | nil => simp [insertAll]
  | cons x rest ih =>
    have := ih (s := s.insert x)
    simp only [insertAll, List.foldl_cons] at this ⊢
    rw [this]; simp only [mem_insert, List.mem_cons]; grind

@[simp] theorem mem_ofList {a : Nat} {xs : List Nat} : a ∈ ofList xs ↔ a ∈ xs := by
  have h : a ∉ empty := not_mem_empty a
  simp [ofList, h]

@[simp] theorem mem_union {a : Nat} {s t : StateSet} : a ∈ s.union t ↔ a ∈ s ∨ a ∈ t :=
  mem_insertAll

@[simp] theorem mem_diff {a : Nat} {s t : StateSet} : a ∈ s.diff t ↔ a ∈ s ∧ a ∉ t := by
  simp [diff]

@[simp] theorem isDisjoint_iff {s t : StateSet} :
    s.isDisjoint t = true ↔ ∀ x ∈ s, x ∉ t := by
  simp [isDisjoint, mem_def]

/-- Two ascending lists with the same members are the same list. -/
theorem ascending_ext {xs ys : List Nat} (hx : xs.Pairwise (· < ·)) (hy : ys.Pairwise (· < ·))
    (h : ∀ a, a ∈ xs ↔ a ∈ ys) : xs = ys := by
  induction xs generalizing ys with
  | nil =>
    cases ys with
    | nil => rfl
    | cons y ys => exact absurd ((h y).2 (by simp)) (by simp)
  | cons x xs ih =>
    cases ys with
    | nil => exact absurd ((h x).1 (by simp)) (by simp)
    | cons y ys =>
      have hxs : ∀ {a}, a ∈ xs → x < a := List.rel_of_pairwise_cons hx
      have hys : ∀ {a}, a ∈ ys → y < a := List.rel_of_pairwise_cons hy
      have hxy : x = y := by
        rcases List.mem_cons.1 ((h x).1 (by simp)) with e | m
        · exact e
        · rcases List.mem_cons.1 ((h y).2 (by simp)) with e | m'
          · exact e.symm
          · exact absurd (hxs m') (Nat.lt_asymm (hys m))
      subst hxy
      have hrest : ∀ a, a ∈ xs ↔ a ∈ ys := by
        intro a
        constructor
        · intro ha
          rcases List.mem_cons.1 ((h a).1 (List.mem_cons_of_mem _ ha)) with e | m
          · exact absurd (hxs ha) (by omega)
          · exact m
        · intro ha
          rcases List.mem_cons.1 ((h a).2 (List.mem_cons_of_mem _ ha)) with e | m
          · exact absurd (hys ha) (by omega)
          · exact m
      rw [ih hx.of_cons hy.of_cons hrest]

theorem ext {s t : StateSet} (h : ∀ x, x ∈ s ↔ x ∈ t) : s = t := by
  have := ascending_ext s.ascending t.ascending h
  cases s; cases t; simp_all

end StateSet

end Statechart
