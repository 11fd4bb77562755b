import Statechart.Proofs.Json.Scanning

/-!
From tokens back to trees, and so from printed trees back to trees: what comes out is the tree
that was printed, but for controls in texts, which are read as the units they were written as and
stand for the same characters.
-/

namespace Statechart.Json

namespace Tree

mutual
/-- The tree as it is read after it has been printed. -/
def scanned : Tree → Tree
  | .null => .null
  | .bool b => .bool b
  | .number n => .number n
  | .text pieces => .text (pieces.map Piece.scanned)
  | .list xs => .list (scannedItems xs)
  | .object ms => .object (scannedMembers ms)
def scannedItems : List Tree → List Tree
  | [] => []
  | x :: xs => scanned x :: scannedItems xs
def scannedMembers : List (List Piece × Tree) → List (List Piece × Tree)
  | [] => []
  | (key, x) :: ms => (key.map Piece.scanned, scanned x) :: scannedMembers ms
end

theorem scannedItems_eq_map (xs : List Tree) : scannedItems xs = xs.map scanned := by
  induction xs with
  | nil => rfl
  | cons x xs ih => rw [scannedItems, ih, List.map_cons]

theorem scannedMembers_eq_map (ms : List (List Piece × Tree)) :
    scannedMembers ms = ms.map fun m => (m.1.map Piece.scanned, m.2.scanned) := by
  induction ms with
  | nil => rfl
  | cons m ms ih => rw [scannedMembers, ih, List.map_cons]

/-- The tokens of a tree are read as the tree, in any container. -/
def Parses (tree : Tree) : Prop :=
  ∀ stack, tree.tokens.foldlM step? (.value stack) = some (.after tree.scanned stack)

/-- The rest of a list, from its next item on. -/
theorem foldlM_items {x : Tree} {xs : List Tree} (h : ∀ y ∈ x :: xs, y.Parses)
    (items : List Tree) (stack : List Frame) :
    ([Token.comma].intercalate (itemTokens (x :: xs)) ++ [Token.closeList]).foldlM step?
        (.value (.list items :: stack)) =
      some (.after (.list (items.reverse ++ scannedItems (x :: xs))) stack) := by
  induction xs generalizing x items with
  | nil =>
    rw [itemTokens, itemTokens, List.intercalate_singleton, List.foldlM_append, h x (by simp)]
    simp [step?, after?, scannedItems]
  | cons y ys ih =>
    have hothers := ih (x := y) (fun z hz => h z (List.mem_cons_of_mem x hz)) (x.scanned :: items)
    rw [itemTokens] at hothers
    rw [itemTokens, itemTokens, List.intercalate_cons_cons, List.append_assoc, List.append_assoc,
      List.foldlM_append, h x (by simp), scannedItems]
    simpa [step?, after?] using hothers

/-- The rest of an object, from its next key on. -/
theorem foldlM_members {m : List Piece × Tree} {ms : List (List Piece × Tree)}
    (h : ∀ n ∈ m :: ms, n.2.Parses) (goal : Goal) (members : List (List Piece × Tree))
    {stack : List Frame}
    (hgoal : ∀ key, step? goal (.text key) = some (.colon members key stack)) :
    ([Token.comma].intercalate (memberTokens (m :: ms)) ++ [Token.closeObject]).foldlM step?
        goal =
      some (.after (.object (members.reverse ++ scannedMembers (m :: ms))) stack) := by
  induction ms generalizing m goal members with
  | nil =>
    have hvalue := h m (by simp) (.member members (m.1.map Piece.scanned) :: stack)
    rw [memberTokens, memberTokens, List.intercalate_singleton, List.cons_append,
      List.foldlM_cons, hgoal]
    simp [step?, hvalue, after?, scannedMembers]
  | cons n ns ih =>
    have hvalue := h m (by simp) (.member members (m.1.map Piece.scanned) :: stack)
    have hothers := ih (m := n) (fun k hk => h k (List.mem_cons_of_mem m hk))
      (.key ((m.1.map Piece.scanned, m.2.scanned) :: members) stack) _ (fun key => rfl)
    rw [memberTokens] at hothers
    rw [memberTokens, memberTokens, List.intercalate_cons_cons, List.append_assoc,
      List.append_assoc, List.cons_append, List.foldlM_cons, hgoal, scannedMembers]
    simpa [step?, hvalue, after?] using hothers

theorem exists_tokens_cons (tree : Tree) :
    ∃ token others, tree.tokens = token :: others ∧ token ≠ .closeList := by
  cases tree <;> exact ⟨_, _, by rw [tokens], by simp⟩

/-- An item may stand where a list may also end. -/
theorem foldlM_firstItem (tree : Tree) (others : List Token) (stack : List Frame) :
    (tree.tokens ++ others).foldlM step? (.item stack) =
      (tree.tokens ++ others).foldlM step? (.value (.list [] :: stack)) := by
  obtain ⟨token, rest, htokens, hopen⟩ := exists_tokens_cons tree
  have hstep : step? (.item stack) token = step? (.value (.list [] :: stack)) token := by
    cases token <;> first | rfl | exact absurd rfl hopen
  rw [htokens, List.cons_append, List.foldlM_cons, List.foldlM_cons, hstep]

theorem parses {tree : Tree} (h : tree.Plain) : tree.Parses := by
  induction h with
  | null => exact fun _ => rfl
  | bool b => exact fun _ => rfl
  | number i => exact fun _ => rfl
  | text cs => exact fun _ => rfl
  | @list xs _ ih =>
    intro stack
    rw [tokens, scanned]
    cases xs with
    | nil => rfl
    | cons x xs =>
      refine Eq.trans ?_ (foldlM_items ih [] stack)
      obtain ⟨others, hothers⟩ : ∃ others,
          [Token.comma].intercalate (itemTokens (x :: xs)) ++ [Token.closeList] =
            x.tokens ++ others := by
        cases xs with
        | nil => exact ⟨_, by rw [itemTokens, itemTokens, List.intercalate_singleton]⟩
        | cons y ys =>
          exact ⟨_, by rw [itemTokens, itemTokens, List.intercalate_cons_cons, List.append_assoc,
            List.append_assoc]⟩
      rw [hothers]
      exact foldlM_firstItem x others stack
  | @object ms _ _ ih =>
    intro stack
    rw [tokens, scanned]
    cases ms with
    | nil => rfl
    | cons m ms =>
      exact foldlM_members ih (.firstKey stack) [] (fun key => rfl)

/-- What is printed is read back, on indented lines as well as without blanks. -/
theorem read_of_scansApart {tree : Tree} (h : tree.Plain) {text : String}
    (htext : Token.ScansApart text.toList tree.tokens) : read text = some tree.scanned := by
  rw [read, scan_of_scansApart htext, Option.bind_some, ofTokens?, parses h []]

theorem read_indented {tree : Tree} (h : tree.Plain) : read tree.indented = some tree.scanned :=
  read_of_scansApart h (scansApart_indentedAt h 0)

theorem read_compact {tree : Tree} (h : tree.Plain) : read tree.compact = some tree.scanned :=
  read_of_scansApart h (scansApart_compact h)

end Tree

end Statechart.Json
