import Statechart.Text.Blank

/-!
Points in time as texts. A timestamp is written in universal time, date before time, with as
many groups of three decimals as it needs. Reading is lenient: blanks may stand before the
numbers of a date and a time, digits may be missing, a blank may stand for the letter between
date and time, and a difference to universal time is taken off.
-/

namespace Statechart

structure Timestamp where
  /-- Days since the first of January 1970. -/
  day : Int
  /-- Seconds since midnight. -/
  second : Nat
  /-- Billionths of a second; a thousand million and more lie in a leap second. -/
  nano : Nat
  deriving DecidableEq

namespace Timestamp

/-- The number of the day `day` of `month` in `year`, counted as if the calendar had always been
the present one. Years are taken to begin in March, so that a leap day comes last. -/
def dayNumber (year : Int) (month day : Nat) : Int :=
  let y := if month ≤ 2 then year - 1 else year
  let era := y / 400
  let yearOfEra := y - era * 400
  let monthFromMarch := if month ≤ 2 then month + 9 else month - 3
  let dayOfYear : Int := ((153 * monthFromMarch + 2) / 5 + (day - 1) : Nat)
  era * 146097 + (yearOfEra * 365 + yearOfEra / 4 - yearOfEra / 100 + dayOfYear) - 719468

/-- The year, month and day of a day number. -/
def civil (number : Int) : Int × Nat × Nat :=
  let z := number + 719468
  let era := z / 146097
  let d := (z - era * 146097).toNat
  let yearOfEra := (d - d / 1460 + d / 36524 - d / 146096) / 365
  let dayOfYear := d - (365 * yearOfEra + yearOfEra / 4 - yearOfEra / 100)
  let monthFromMarch := (5 * dayOfYear + 2) / 153
  let day := dayOfYear - (153 * monthFromMarch + 2) / 5 + 1
  let month := if monthFromMarch < 10 then monthFromMarch + 3 else monthFromMarch - 9
  ((yearOfEra : Int) + era * 400 + (if month ≤ 2 then 1 else 0), month, day)

def isLeap (year : Int) : Bool :=
  decide (year % 4 = 0 ∧ (year % 100 ≠ 0 ∨ year % 400 = 0))

def daysIn (year : Int) (month : Nat) : Nat :=
  if month = 2 then (if isLeap year then 29 else 28)
  else if month = 4 ∨ month = 6 ∨ month = 9 ∨ month = 11 then 30
  else 31

/-- The years that a timestamp may lie in. -/
def isYear (year : Int) : Bool :=
  decide (-262143 ≤ year ∧ year ≤ 262142)

/-- `n` in decimal with at least `width` digits. -/
def padded (width n : Nat) : String :=
  let digits := Nat.toDigits 10 n
  String.ofList (List.replicate (width - digits.length) '0' ++ digits)

/-- A year has four digits; one with more, or before the year zero, has a sign and five. -/
def renderYear (year : Int) : String :=
  if 0 ≤ year ∧ year ≤ 9999 then padded 4 year.toNat
  else (if year < 0 then "-" else "+") ++ padded 4 year.natAbs

/-- Decimals of a second in groups of three, or none. -/
def renderFraction (nano : Nat) : String :=
  if nano = 0 then ""
  else if nano % 1000000 = 0 then "." ++ padded 3 (nano / 1000000)
  else if nano % 1000 = 0 then "." ++ padded 6 (nano / 1000)
  else "." ++ padded 9 nano

def render (t : Timestamp) : String :=
  let (year, month, day) := civil t.day
  let leap := t.nano / 1000000000
  renderYear year ++ "-" ++ padded 2 month ++ "-" ++ padded 2 day ++ "T" ++
    padded 2 (t.second / 3600) ++ ":" ++ padded 2 (t.second / 60 % 60) ++ ":" ++
    padded 2 (t.second % 60 + leap) ++ renderFraction (t.nano % 1000000000) ++ "Z"

/-- Reads at least one and at most `most` digits. -/
def number? (most : Nat) (cs : List Char) : Option (Nat × List Char) :=
  let digits := (cs.take most).takeWhile Char.isDigit
  if digits.isEmpty then none
  else some (Nat.ofDigitChars 10 digits 0, cs.drop digits.length)

/-- Reads a number of at most two digits in the given range, after blanks. -/
def field? (low high : Nat) (cs : List Char) : Option (Nat × List Char) := do
  let (n, rest) ← number? 2 (Text.trimStart cs)
  if low ≤ n ∧ n ≤ high then some (n, rest) else none

/-- Reads `mark`, after blanks. -/
def mark? (mark : Char) (cs : List Char) : Option (List Char) :=
  match Text.trimStart cs with
  | c :: rest => if c = mark then some rest else none
  | [] => none

/-- Reads a year: up to four digits, or any number of them after a sign. -/
def year? (cs : List Char) : Option (Int × List Char) :=
  match Text.trimStart cs with
  | '-' :: rest => (number? rest.length rest).map fun (n, rest) => (-(n : Int), rest)
  | '+' :: rest => (number? rest.length rest).map fun (n, rest) => ((n : Int), rest)
  | cs => (number? 4 cs).map fun (n, rest) => ((n : Int), rest)

/-- Reads the decimals of a second, of which nine count. -/
def fraction? : List Char → Option (Nat × List Char)
  | '.' :: rest => do
    let digits := (rest.take 9).takeWhile Char.isDigit
    if digits.isEmpty then none
    else
      some (Nat.ofDigitChars 10 digits 0 * Nat.pow 10 (9 - digits.length),
        rest.dropWhile Char.isDigit)
  | cs => some (0, cs)

/-- Reads hours and minutes of a difference to universal time, in seconds. -/
def difference? (cs : List Char) : Option (Nat × List Char) :=
  match cs with
  | a :: b :: rest =>
    match rest.dropWhile (fun c => c == ':' || Text.isBlank c) with
    | c :: d :: rest =>
      if [a, b, c, d].all Char.isDigit ∧ c < '6' then
        some (Nat.ofDigitChars 10 [a, b] 0 * 3600 + Nat.ofDigitChars 10 [c, d] 0 * 60, rest)
      else none
    | _ => none
  | _ => none

/-- Reads the zone of a time: how many seconds it is ahead of universal time. -/
def zone? (cs : List Char) : Option (Int × List Char) :=
  if (cs.take 3).map Char.toUpper = ['U', 'T', 'C'] then some (0, cs.drop 3)
  else
    match cs with
    | 'Z' :: rest | 'z' :: rest => some (0, rest)
    | '+' :: rest => (difference? rest).map fun (n, rest) => ((n : Int), rest)
    | '-' :: rest | '−' :: rest => (difference? rest).map fun (n, rest) => (-(n : Int), rest)
    | _ => none

def parse? (text : String) : Option Timestamp := do
  let (year, cs) ← year? text.toList
  let (month, cs) ← field? 1 12 (← mark? '-' cs)
  let (day, cs) ← field? 1 31 (← mark? '-' cs)
  let cs ← match cs with
    | 't' :: rest | 'T' :: rest | ' ' :: rest => some rest
    | _ => none
  let (hour, cs) ← field? 0 23 cs
  let (minute, cs) ← field? 0 59 (← mark? ':' cs)
  let (second, cs) ← field? 0 60 (← mark? ':' cs)
  let (nano, cs) ← fraction? cs
  let (ahead, cs) ← zone? (Text.trimStart cs)
  let leap := second / 60
  let total : Int := dayNumber year month day * 86400 +
    (hour * 3600 + minute * 60 + (second - leap) : Nat) - ahead
  if isYear year ∧ day ≤ daysIn year month ∧ (Text.trimStart cs).isEmpty ∧
      ahead.natAbs < 86400 ∧ isYear (civil (total / 86400)).1 then
    some ⟨total / 86400, (total % 86400).toNat, nano + leap * 1000000000⟩
  else none

end Timestamp

end Statechart
