import Mathlib.Algebra.GroupWithZero.Nat
import Statechart.Session.Id

/-!
Session ids are read back as they are written: the groups are put together again and every
digit is read as itself.
-/

namespace Statechart.SessionId

theorem length_group {lengths : List Nat} {cs : List Char} (hne : lengths ≠ [])
    (hlength : cs.length = lengths.sum) :
    (group lengths cs).length + 1 = cs.length + lengths.length := by
  induction lengths generalizing cs with
  | nil => exact absurd rfl hne
  | cons n rest ih =>
    cases rest with
    | nil =>
      rw [List.sum_singleton] at hlength
      simp [group, hlength]
    | cons k rest =>
      rw [List.sum_cons] at hlength
      have hdrop : (cs.drop n).length = (k :: rest).sum := by
        rw [List.length_drop]
        omega
      have hrest := ih (List.cons_ne_nil k rest) hdrop
      rw [List.length_drop] at hrest
      simp only [group, List.length_append, List.length_take, List.length_cons] at hrest ⊢
      omega

/-- Groups with hyphens between them are put together again. -/
theorem ungroup?_group {lengths : List Nat} {cs : List Char} (hne : lengths ≠ [])
    (hlength : cs.length = lengths.sum) : ungroup? lengths (group lengths cs) = some cs := by
  induction lengths generalizing cs with
  | nil => exact absurd rfl hne
  | cons n rest ih =>
    cases rest with
    | nil =>
      rw [List.sum_singleton] at hlength
      simp [group, ungroup?, ← hlength]
    | cons k rest =>
      rw [List.sum_cons] at hlength
      have hdrop : (cs.drop n).length = (k :: rest).sum := by
        rw [List.length_drop]
        omega
      have htake : (cs.take n).length = n := by
        rw [List.length_take]
        omega
      have hrest := ih (List.cons_ne_nil k rest) hdrop
      rw [group, ungroup?, List.drop_left' htake, List.take_left' htake]
      · simp only [hrest, Option.map_some, List.take_append_drop]
      · exact List.cons_ne_nil k rest
      · exact List.cons_ne_nil k rest

theorem hexDigit?_digitChar (d : Fin 16) :
    Json.Token.hexDigit? (Nat.digitChar d.val) = some d.val := by
  revert d
  decide

theorem ofDigits?_digits (id : SessionId) :
    ofDigits? (id.digits.map (fun d => Nat.digitChar d.val)) = some id := by
  have hread : (id.digits.map (fun d => Nat.digitChar d.val)).mapM Json.Token.hexDigit? =
      some (id.digits.map Fin.val) := by
    induction id.digits with
    | nil => rfl
    | cons d rest ih => simp [hexDigit?_digitChar, ih]
  have hdigits : (id.digits.map Fin.val).map (Fin.ofNat 16) = id.digits := by
    rw [List.map_map]
    exact List.map_id'' (fun d => Fin.ext (Nat.mod_eq_of_lt d.isLt)) _
  unfold ofDigits?
  rw [hread]
  simp only [hdigits, id.length_digits, dif_pos]

/-- What is written is read back. -/
theorem parse?_render (id : SessionId) : parse? id.render = some id := by
  have hdigits : (id.digits.map (fun d => Nat.digitChar d.val)).length = groups.sum := by
    rw [List.length_map, id.length_digits]
    rfl
  have hne : groups ≠ [] := by decide
  have hlength := length_group hne hdigits
  have hungroup := ungroup?_group hne hdigits
  have h36 : (group groups (id.digits.map (fun d => Nat.digitChar d.val))).length = 36 := by
    rw [hdigits] at hlength
    exact Nat.succ.inj hlength
  unfold parse? render
  simp [h36, hyphenated?, hungroup, ofDigits?_digits]

end Statechart.SessionId
