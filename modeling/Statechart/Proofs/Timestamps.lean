import Mathlib.Algebra.Order.Group.Int
import Mathlib.Algebra.Order.Ring.Nat
import Mathlib.Data.List.TakeWhile
import Statechart.Snapshot.Timestamp

/-!
Timestamps are read back as they are written. A day number is taken apart into year, month and
day and put together again; a time of day is written with two digits each for its hours, minutes
and seconds, the second of a leap second as the sixtieth of its minute.
-/

namespace Statechart.Timestamp

/-- The year of an era of 400 years in which the day `d` lies, and the day of that year. The last
day of a year of 366 days comes before the first of March of a leap year. -/
theorem exists_year {d : Nat} (hd : d < 146097) :
    ∃ y n, (d - d / 1460 + d / 36524 - d / 146096) / 365 = y ∧ y < 400 ∧
      d = 365 * y + y / 4 - y / 100 + n ∧ n ≤ 365 ∧
      (n = 365 → (y + 1) % 4 = 0 ∧ ((y + 1) % 100 ≠ 0 ∨ (y + 1) % 400 = 0)) := by
  rcases Nat.lt_or_ge d 146096 with hlt | hge
  · obtain ⟨century, hcentury⟩ : ∃ century, d / 36524 = century := ⟨_, rfl⟩
    obtain ⟨q, hq⟩ : ∃ q, (d - 36524 * century) / 1461 = q := ⟨_, rfl⟩
    obtain ⟨k, hk⟩ : ∃ k, (d - 36524 * century - 1461 * q) / 365 = k := ⟨_, rfl⟩
    have hera : d / 146096 = 0 := by omega
    have hyear : (d - d / 1460 + d / 36524 - d / 146096) / 365 =
        100 * century + 4 * q + min k 3 := by
      rw [hera, hcentury]
      -- The years of four are counted a little too short, which shows late in the last of them.
      have hleaps : d / 1460 = 25 * century + q ∨ d / 1460 = 25 * century + q + 1 := by omega
      omega
    have h4 : (100 * century + 4 * q + min k 3) / 4 = 25 * century + q := by omega
    have h100 : (100 * century + 4 * q + min k 3) / 100 = century := by omega
    refine ⟨_, d - 36524 * century - 1461 * q - 365 * min k 3, hyear, by omega, ?_, ?_, ?_⟩
    · rw [h4, h100]
      omega
    · omega
    · omega
  · obtain rfl : d = 146096 := by omega
    exact ⟨399, 365, by decide⟩

/-- Day `n` of a year that begins in March lies in a month that is long enough. -/
theorem month_bounds {n month : Nat} (hn : n ≤ 365) (hmonth : (5 * n + 2) / 153 = month) :
    month ≤ 11 ∧ (153 * month + 2) / 5 ≤ n ∧ n - (153 * month + 2) / 5 ≤ 30 ∧
      (month = 1 ∨ month = 3 ∨ month = 6 ∨ month = 8 → n - (153 * month + 2) / 5 ≤ 29) ∧
      (month = 11 → n - (153 * month + 2) / 5 ≤ 28 ∧
        (n < 365 → n - (153 * month + 2) / 5 ≤ 27)) := by
  omega

/-- The year of an era that begins in March, put in front of the months that it shares with the
next year. -/
theorem dayNumber_of_march (era : Int) {y month n : Nat} (hy : y < 400) (hmonth : month ≤ 11)
    (hstart : (153 * month + 2) / 5 ≤ n) :
    dayNumber (y + era * 400 + (if month < 10 then 0 else 1))
        (if month < 10 then month + 3 else month - 9) (n - (153 * month + 2) / 5 + 1) =
      era * 146097 + (365 * y + y / 4 - y / 100 + n : Nat) - 719468 := by
  have hyear : (y + era * 400) / 400 = era := by omega
  have hmarch : (y + era * 400) - era * 400 = (y : Int) := by omega
  by_cases hlt : month < 10
  · have hlate : ¬ month + 3 ≤ 2 := by omega
    simp only [dayNumber, hlt, if_true, hlate, if_false, add_zero, hyear, hmarch,
      Nat.add_sub_cancel]
    omega
  · have hearly : month - 9 ≤ 2 := by omega
    have hback : month - 9 + 9 = month := by omega
    simp only [dayNumber, hlt, if_false, hearly, if_true, add_sub_cancel_right, hyear, hmarch,
      Nat.add_sub_cancel, hback]
    omega

theorem civil_eq {number era : Int} {d y n month : Nat}
    (hera : (number + 719468) / 146097 = era) (hd : (number + 719468 - era * 146097).toNat = d)
    (hy : (d - d / 1460 + d / 36524 - d / 146096) / 365 = y)
    (hn : d - (365 * y + y / 4 - y / 100) = n) (hmonth : (5 * n + 2) / 153 = month) :
    civil number =
      (y + era * 400 + (if (if month < 10 then month + 3 else month - 9) ≤ 2 then 1 else 0),
        if month < 10 then month + 3 else month - 9, n - (153 * month + 2) / 5 + 1) := by
  subst hmonth hn hy hd hera
  rfl

theorem daysIn_le (year : Int) (month : Nat) : daysIn year month ≤ 31 := by
  unfold daysIn
  split
  · split <;> omega
  · split <;> omega

/-- A day is put together again of its year, month and day, which are those of a calendar. -/
theorem civil_spec (number : Int) :
    ∃ year month day, civil number = (year, month, day) ∧
      dayNumber year month day = number ∧ 1 ≤ month ∧ month ≤ 12 ∧ 1 ≤ day ∧
      day ≤ daysIn year month := by
  obtain ⟨era, hera⟩ : ∃ era, (number + 719468) / 146097 = era := ⟨_, rfl⟩
  obtain ⟨d, hd⟩ : ∃ d, (number + 719468 - era * 146097).toNat = d := ⟨_, rfl⟩
  have hnumber : number = era * 146097 + d - 719468 := by omega
  obtain ⟨y, n, hy, hy400, hdn, hn, hleap⟩ := exists_year (d := d) (by omega)
  have hn' : d - (365 * y + y / 4 - y / 100) = n := by omega
  obtain ⟨month, hmonth⟩ : ∃ month, (5 * n + 2) / 153 = month := ⟨_, rfl⟩
  obtain ⟨hm11, hstart, hday, hshort, hfebruary⟩ := month_bounds hn hmonth
  have hnext : (if (if month < 10 then month + 3 else month - 9) ≤ 2 then 1 else 0) =
      (if month < 10 then (0 : Int) else 1) := by
    split <;> split <;> omega
  have hcivil := civil_eq hera hd hy hn' hmonth
  rw [hnext] at hcivil
  refine ⟨_, _, _, hcivil, ?_, ?_, ?_, ?_, ?_⟩
  · rw [hnumber, hdn]
    exact dayNumber_of_march era hy400 hm11 hstart
  · split <;> omega
  · split <;> omega
  · omega
  · unfold daysIn
    by_cases hlt : month < 10
    · simp only [hlt, if_true]
      split
      · omega
      · split <;> omega
    · simp only [hlt, if_false, isLeap, decide_eq_true_eq]
      split
      · split <;> omega
      · split <;> omega

theorem toList_padded (width n : Nat) : (padded width n).toList =
    List.replicate (width - (Nat.toDigits 10 n).length) '0' ++ Nat.toDigits 10 n := by
  rw [padded, String.toList_ofList]

theorem isDigit_of_mem_padded {width n : Nat} {c : Char} (h : c ∈ (padded width n).toList) :
    c.isDigit = true := by
  rw [toList_padded, List.mem_append, List.mem_replicate] at h
  rcases h with ⟨-, rfl⟩ | h
  · decide
  · exact Nat.isDigit_of_mem_toDigits (by decide) (by decide) h

theorem ofDigitChars_padded (width n : Nat) :
    Nat.ofDigitChars 10 (padded width n).toList 0 = n := by
  rw [toList_padded, Nat.ofDigitChars_append, Nat.ofDigitChars_replicate_zero, Nat.mul_zero,
    Nat.ofDigitChars_toDigits (by decide) (by decide)]

theorem padded_ne_nil (width n : Nat) : (padded width n).toList ≠ [] := by
  rw [toList_padded]
  exact List.append_ne_nil_of_right_ne_nil _ Nat.toDigits_ne_nil

theorem length_padded {width n : Nat} (hwidth : 0 < width) (hn : n < 10 ^ width) :
    (padded width n).toList.length = width := by
  have hlength := (Nat.length_toDigits_le_iff (b := 10) (by decide) hwidth).2 hn
  rw [toList_padded, List.length_append, List.length_replicate]
  omega

theorem isBlank_of_isDigit {c : Char} (h : c.isDigit = true) : Text.isBlank c = false := by
  have hlow : 48 ≤ c.toNat ∧ c.toNat ≤ 57 := by
    simpa [Char.isDigit, UInt32.le_iff_toNat_le] using h
  simp only [Text.isBlank, Bool.or_eq_false_iff, beq_eq_false_iff_ne, Bool.and_eq_false_iff,
    decide_eq_false_iff_not]
  omega

theorem trimStart_of_not_blank {c : Char} (h : Text.isBlank c = false) (rest : List Char) :
    Text.trimStart (c :: rest) = c :: rest := by
  rw [Text.trimStart, List.dropWhile_cons_of_neg (by simp [h])]

/-- Digits are read up to the first that may not be read any more, or the first character that is
no digit. -/
theorem takeWhile_take_digits {digits rest : List Char} {most : Nat}
    (hdigits : ∀ c ∈ digits, c.isDigit = true)
    (hend : digits.length = most ∨
      digits.length ≤ most ∧ ∀ c ∈ rest.head?, c.isDigit = false) :
    ((digits ++ rest).take most).takeWhile Char.isDigit = digits := by
  have hle : digits.length ≤ most := by omega
  have hnone : (rest.take (most - digits.length)).takeWhile Char.isDigit = [] := by
    rcases hend with heq | ⟨-, hrest⟩
    · rw [heq, Nat.sub_self]
      rfl
    · cases rest with
      | nil => simp
      | cons c rest =>
        cases most - digits.length with
        | zero => rfl
        | succ k => simp [hrest c rfl]
  rw [List.take_append, List.take_of_length_le hle, List.takeWhile_append_of_pos hdigits, hnone,
    List.append_nil]

theorem number?_append {digits rest : List Char} {most : Nat} (hne : digits ≠ [])
    (hdigits : ∀ c ∈ digits, c.isDigit = true)
    (hend : digits.length = most ∨
      digits.length ≤ most ∧ ∀ c ∈ rest.head?, c.isDigit = false) :
    number? most (digits ++ rest) = some (Nat.ofDigitChars 10 digits 0, rest) := by
  simp only [number?, takeWhile_take_digits hdigits hend, List.isEmpty_iff, hne, if_false,
    List.drop_left]

theorem trimStart_padded (width n : Nat) (rest : List Char) :
    Text.trimStart ((padded width n).toList ++ rest) = (padded width n).toList ++ rest := by
  obtain ⟨c, cs, hcs⟩ := List.exists_cons_of_ne_nil (padded_ne_nil width n)
  have hmem : c ∈ (padded width n).toList := by simp [hcs]
  have hc := isDigit_of_mem_padded hmem
  rw [hcs, List.cons_append, trimStart_of_not_blank (isBlank_of_isDigit hc)]

theorem field?_padded {low high n : Nat} (hlow : low ≤ n) (hhigh : n ≤ high) (h : high < 100)
    (rest : List Char) : field? low high ((padded 2 n).toList ++ rest) = some (n, rest) := by
  have hnumber : number? 2 ((padded 2 n).toList ++ rest) = some (n, rest) := by
    rw [number?_append (padded_ne_nil 2 n) (fun c => isDigit_of_mem_padded)
      (.inl (length_padded (by decide) (by omega))), ofDigitChars_padded]
  simp [field?, trimStart_padded, hnumber, hlow, hhigh]

theorem mark?_cons (mark : Char) (h : Text.isBlank mark = false) (rest : List Char) :
    mark? mark (mark :: rest) = some rest := by
  simp [mark?, trimStart_of_not_blank h]

/-- What is read goes on to what is done with it. -/
theorem bind_of_read {α β : Type} {read : Option α} {a : α} (h : read = some a)
    (next : α → Option β) : read >>= next = next a := by
  rw [h]
  rfl

/-- A timestamp within bounds: its year is one that a timestamp may lie in, its time is a time of
day, and its second is drawn out by a leap second at most. -/
structure InRange (t : Timestamp) : Prop where
  year : isYear (civil t.day).1 = true
  second : t.second < 86400
  nano : t.nano < 2000000000

/-- If the timestamp lies in a leap second, then in one at the end of a minute. -/
def LeapsAtMinute (t : Timestamp) : Prop :=
  1000000000 ≤ t.nano → t.second % 60 = 59

/-- A timestamp as a clock gives it: one within bounds, where a leap second is the last of its
minute. -/
structure Valid (t : Timestamp) : Prop extends InRange t where
  leap : t.LeapsAtMinute

theorem year?_of_digit {c : Char} (h : c.isDigit = true) (rest : List Char) :
    year? (c :: rest) = (number? 4 (c :: rest)).map fun (n, rest) => ((n : Int), rest) := by
  rw [year?, trimStart_of_not_blank (isBlank_of_isDigit h)]
  split
  · next heq => simp [(List.cons.inj heq).1] at h
  · next heq => simp [(List.cons.inj heq).1] at h
  · rfl

/-- A year is read up to what follows it. -/
theorem year?_renderYear (year : Int) {rest : List Char}
    (hrest : ∀ c ∈ rest.head?, c.isDigit = false) :
    year? ((renderYear year).toList ++ rest) = some (year, rest) := by
  unfold renderYear
  split
  · next hrange =>
    have hnumber : number? 4 ((padded 4 year.toNat).toList ++ rest) = some (year.toNat, rest) := by
      rw [number?_append (padded_ne_nil 4 _) (fun c => isDigit_of_mem_padded)
        (.inl (length_padded (by decide) (by omega))), ofDigitChars_padded]
    obtain ⟨c, cs, hcs⟩ := List.exists_cons_of_ne_nil (padded_ne_nil 4 year.toNat)
    have hmem : c ∈ (padded 4 year.toNat).toList := by simp [hcs]
    have hc := isDigit_of_mem_padded hmem
    rw [hcs, List.cons_append] at hnumber ⊢
    rw [year?_of_digit hc, hnumber]
    simp [hrange.1]
  · next hrange =>
    have hnumber : number? ((padded 4 year.natAbs).toList ++ rest).length
        ((padded 4 year.natAbs).toList ++ rest) = some (year.natAbs, rest) := by
      rw [number?_append (padded_ne_nil 4 _) (fun c => isDigit_of_mem_padded)
        (.inr ⟨by simp, hrest⟩), ofDigitChars_padded]
    by_cases hneg : year < 0
    · have hsign : ("-" ++ padded 4 year.natAbs).toList ++ rest =
          '-' :: ((padded 4 year.natAbs).toList ++ rest) := by simp
      have hback : -(year.natAbs : Int) = year := by omega
      rw [if_pos hneg, hsign, year?, trimStart_of_not_blank (by decide)]
      simp only [hnumber, Option.map_some, hback]
    · have hsign : ("+" ++ padded 4 year.natAbs).toList ++ rest =
          '+' :: ((padded 4 year.natAbs).toList ++ rest) := by simp
      have hback : (year.natAbs : Int) = year := by omega
      rw [if_neg hneg, hsign, year?, trimStart_of_not_blank (by decide)]
      simp only [hnumber, Option.map_some, hback]

/-- Decimals are read as what they are of a thousand million. -/
theorem fraction?_padded {width n : Nat} (hwidth : 0 < width) (hmost : width ≤ 9)
    (hn : n < 10 ^ width) {rest : List Char} (hrest : ∀ c ∈ rest.head?, c.isDigit = false) :
    fraction? ('.' :: ((padded width n).toList ++ rest)) =
      some (n * 10 ^ (9 - width), rest) := by
  have hlength := length_padded hwidth hn
  have htake : (((padded width n).toList ++ rest).take 9).takeWhile Char.isDigit =
      (padded width n).toList :=
    takeWhile_take_digits (fun c => isDigit_of_mem_padded) (.inr ⟨by omega, hrest⟩)
  have hdrop : ((padded width n).toList ++ rest).dropWhile Char.isDigit = rest := by
    rw [List.dropWhile_append_of_pos (fun c => isDigit_of_mem_padded)]
    cases rest with
    | nil => rfl
    | cons c rest => simp [hrest c rfl]
  simp only [fraction?, htake, hdrop, List.isEmpty_iff, padded_ne_nil, if_false,
    ofDigitChars_padded, hlength, Nat.pow_eq]

theorem fraction?_renderFraction {nano : Nat} (h : nano < 1000000000) (rest : List Char) :
    fraction? ((renderFraction nano).toList ++ 'Z' :: rest) = some (nano, 'Z' :: rest) := by
  have hpoint : ∀ width n, ("." ++ padded width n).toList ++ 'Z' :: rest =
      '.' :: ((padded width n).toList ++ 'Z' :: rest) := by simp
  have hz : ∀ c ∈ ('Z' :: rest).head?, c.isDigit = false := by simp
  unfold renderFraction
  split
  · next hzero =>
    subst hzero
    rfl
  · split
    · rw [hpoint, fraction?_padded (by decide) (by decide) (by omega) hz]
      congr 2
      omega
    · split
      · rw [hpoint, fraction?_padded (by decide) (by decide) (by omega) hz]
        congr 2
        omega
      · rw [hpoint, fraction?_padded (by decide) (by decide) (by omega) hz]
        simp

theorem toList_render {t : Timestamp} {year : Int} {month day : Nat}
    (h : civil t.day = (year, month, day)) :
    t.render.toList = (renderYear year).toList ++ '-' :: ((padded 2 month).toList ++
      '-' :: ((padded 2 day).toList ++ 'T' :: ((padded 2 (t.second / 3600)).toList ++
      ':' :: ((padded 2 (t.second / 60 % 60)).toList ++
      ':' :: ((padded 2 (t.second % 60 + t.nano / 1000000000)).toList ++
        ((renderFraction (t.nano % 1000000000)).toList ++ ['Z'])))))) := by
  simp [render, h]

theorem zone?_universal : zone? ['Z'] = some (0, []) := by
  decide

/-- A timestamp of a clock is read back as it is written. -/
theorem parse?_render {t : Timestamp} (h : t.Valid) : parse? t.render = some t := by
  obtain ⟨year, month, day, hcivil, hnumber, hmonth, hmonth12, hday, hdays⟩ := civil_spec t.day
  have hyear : isYear year = true := by
    have := h.year
    rwa [hcivil] at this
  have hsecond := h.second
  have hnano := h.nano
  have hleap : 1000000000 ≤ t.nano → t.second % 60 = 59 := h.leap
  have h31 : day ≤ 31 := hdays.trans (daysIn_le year month)
  -- The second of a leap second is written as the sixtieth, and only such a one is.
  obtain ⟨second, hs⟩ : ∃ second, t.second % 60 + t.nano / 1000000000 = second := ⟨_, rfl⟩
  have hsixty : second / 60 = t.nano / 1000000000 := by omega
  have htime : t.second / 3600 * 3600 + t.second / 60 % 60 * 60 +
      (second - t.nano / 1000000000) = t.second := by omega
  have hfraction : t.nano % 1000000000 + t.nano / 1000000000 * 1000000000 = t.nano := by omega
  have htotal : (t.day * 86400 + (t.second : Int)) / 86400 = t.day := by omega
  have hrest : ((t.day * 86400 + (t.second : Int)) % 86400).toNat = t.second := by omega
  have hhour : t.second / 3600 ≤ 23 := by omega
  have hminute : t.second / 60 % 60 ≤ 59 := by omega
  have hsecond60 : second ≤ 60 := by omega
  have hdecimals : t.nano % 1000000000 < 1000000000 := Nat.mod_lt _ (by omega)
  have hzone : zone? (Text.trimStart ['Z']) = some (0, []) := by
    rw [trimStart_of_not_blank (by decide), zone?_universal]
  unfold parse?
  rw [toList_render hcivil, hs]
  -- Field after field, what is left begins with the next.
  refine (bind_of_read (year?_renderYear year (by simp)) _).trans ?_
  refine (bind_of_read (mark?_cons '-' (by decide) _) _).trans ?_
  refine (bind_of_read (field?_padded hmonth hmonth12 (by decide) _) _).trans ?_
  refine (bind_of_read (mark?_cons '-' (by decide) _) _).trans ?_
  refine (bind_of_read (field?_padded hday h31 (by decide) _) _).trans ?_
  refine (bind_of_read rfl _).trans ?_
  refine (bind_of_read (field?_padded (Nat.zero_le _) hhour (by decide) _) _).trans ?_
  refine (bind_of_read (mark?_cons ':' (by decide) _) _).trans ?_
  refine (bind_of_read (field?_padded (Nat.zero_le _) hminute (by decide) _) _).trans ?_
  refine (bind_of_read (mark?_cons ':' (by decide) _) _).trans ?_
  refine (bind_of_read (field?_padded (Nat.zero_le _) hsecond60 (by decide) _) _).trans ?_
  refine (bind_of_read (fraction?_renderFraction hdecimals []) _).trans ?_
  refine (bind_of_read hzone _).trans ?_
  simp only [hsixty, htime, hfraction, hnumber, Int.sub_zero, htotal, hrest]
  rw [if_pos]
  exact ⟨hyear, hdays, rfl, by decide, h.year⟩

theorem ofDigitChars_lt {digits : List Char} (h : ∀ c ∈ digits, c.isDigit = true) (n : Nat) :
    Nat.ofDigitChars 10 digits n < (n + 1) * 10 ^ digits.length := by
  induction digits generalizing n with
  | nil => simp
  | cons c rest ih =>
    have hc : c.toNat - '0'.toNat < 10 := by
      have hrange : 48 ≤ c.toNat ∧ c.toNat ≤ 57 := by
        simpa [Char.isDigit, UInt32.le_iff_toNat_le] using h c (by simp)
      have hzero : '0'.toNat = 48 := rfl
      omega
    rw [Nat.ofDigitChars_cons, List.length_cons, Nat.pow_succ']
    refine (ih (fun c hc => h c (List.mem_cons_of_mem _ hc)) _).trans_le ?_
    rw [← Nat.mul_assoc]
    exact Nat.mul_le_mul_right _ (by omega)

theorem le_of_field? {low high n : Nat} {cs rest : List Char}
    (h : field? low high cs = some (n, rest)) : n ≤ high := by
  unfold field? at h
  obtain ⟨⟨k, others⟩, -, h⟩ := Option.bind_eq_some_iff.1 h
  dsimp only at h
  split at h
  · next hrange =>
    cases h
    exact hrange.2
  · cases h

theorem lt_of_fraction? {n : Nat} {cs rest : List Char} (h : fraction? cs = some (n, rest)) :
    n < 1000000000 := by
  unfold fraction? at h
  split at h
  · next others =>
    obtain ⟨digits, hdigits⟩ :
        ∃ digits, (others.take 9).takeWhile Char.isDigit = digits := ⟨_, rfl⟩
    have hlength : digits.length ≤ 9 := by
      rw [← hdigits]
      exact (List.takeWhile_sublist _).length_le.trans (List.length_take_le 9 others)
    have hall : ∀ c ∈ digits, c.isDigit = true :=
      fun c hc => List.mem_takeWhile_imp (hdigits ▸ hc)
    have hlt := ofDigitChars_lt hall 0
    simp only [hdigits] at h
    split at h
    · cases h
    · cases h
      rw [Nat.zero_add, Nat.one_mul] at hlt
      have hpow : 10 ^ digits.length * 10 ^ (9 - digits.length) = 1000000000 := by
        rw [← Nat.pow_add, Nat.add_sub_cancel' hlength]
      rw [← hpow]
      exact Nat.mul_lt_mul_of_pos_right hlt (Nat.pow_pos (by decide))
  · cases h
    decide

theorem difference?_minutes {n : Nat} {cs rest : List Char}
    (h : difference? cs = some (n, rest)) : n % 60 = 0 := by
  unfold difference? at h
  split at h
  · split at h
    · split at h
      · cases h
        omega
      · cases h
    · cases h
  · cases h

theorem zone?_minutes {ahead : Int} {cs rest : List Char} (h : zone? cs = some (ahead, rest)) :
    ahead % 60 = 0 := by
  unfold zone? at h
  split at h
  · cases h
    rfl
  · split at h
    · cases h
      rfl
    · cases h
      rfl
    all_goals
      first
      | cases h
      | obtain ⟨⟨n, others⟩, hn, h⟩ := Option.map_eq_some_iff.1 h
        have := difference?_minutes hn
        cases h
        omega

/-- What a text is read as is a timestamp of a clock. -/
theorem valid_of_parse? {text : String} {t : Timestamp} (h : parse? text = some t) : t.Valid := by
  unfold parse? at h
  obtain ⟨⟨year, _⟩, -, h⟩ := Option.bind_eq_some_iff.1 h
  obtain ⟨_, -, h⟩ := Option.bind_eq_some_iff.1 h
  obtain ⟨⟨month, _⟩, -, h⟩ := Option.bind_eq_some_iff.1 h
  obtain ⟨_, -, h⟩ := Option.bind_eq_some_iff.1 h
  obtain ⟨⟨day, _⟩, -, h⟩ := Option.bind_eq_some_iff.1 h
  dsimp -zeta only at h
  extract_lets atTime at h
  obtain ⟨cs, h⟩ : ∃ cs, atTime cs = some t := by
    split at h
    · exact ⟨_, h⟩
    · exact ⟨_, h⟩
    · exact ⟨_, h⟩
    · cases h
  obtain ⟨⟨hour, _⟩, -, h⟩ := Option.bind_eq_some_iff.1 h
  obtain ⟨_, -, h⟩ := Option.bind_eq_some_iff.1 h
  obtain ⟨⟨minute, _⟩, -, h⟩ := Option.bind_eq_some_iff.1 h
  obtain ⟨_, -, h⟩ := Option.bind_eq_some_iff.1 h
  obtain ⟨⟨second, _⟩, hsecond, h⟩ := Option.bind_eq_some_iff.1 h
  obtain ⟨⟨nano, _⟩, hnano, h⟩ := Option.bind_eq_some_iff.1 h
  obtain ⟨⟨ahead, _⟩, hahead, h⟩ := Option.bind_eq_some_iff.1 h
  have hsixty : second ≤ 60 := le_of_field? hsecond
  have hfraction : nano < 1000000000 := lt_of_fraction? hnano
  have hminutes : ahead % 60 = 0 := zone?_minutes hahead
  dsimp only at h
  split at h
  · next hin =>
    obtain rfl := Option.some.inj h
    refine ⟨⟨hin.2.2.2.2, by dsimp only; omega, by dsimp only; omega⟩, ?_⟩
    intro hleap
    dsimp only at hleap ⊢
    obtain rfl : second = 60 := by omega
    omega
  · cases h

/-- Exactly the timestamps of clocks are read back as they are written. -/
theorem parse?_render_iff {t : Timestamp} : parse? t.render = some t ↔ t.Valid :=
  ⟨valid_of_parse?, parse?_render⟩

/-- Within bounds, only a leap second within a minute is not read back. -/
theorem InRange.parse?_render_iff {t : Timestamp} (h : t.InRange) :
    parse? t.render = some t ↔ t.LeapsAtMinute :=
  Timestamp.parse?_render_iff.trans ⟨Valid.leap, fun hleap => ⟨h, hleap⟩⟩

end Statechart.Timestamp
