import Statechart.Decimal.Shortest

/-!
Numerals of JSON texts and the numbers they stand for.

A numeral without point and exponent is an integer as long as it fits 64 bits, signed or
unsigned; every other numeral is a double. A double is computed from the first digits that
fit 64 bits, scaled in double arithmetic by one power of ten at a time, so a numeral with many
digits may come out one place away from the nearest double. `-0` is the double minus zero,
and a numeral beyond the range of doubles stands for no number.
-/

namespace Statechart.Json

/-- A number as it is written. Digits are the characters `0` to `9`. -/
structure Numeral where
  negative : Bool
  whole : List Char
  /-- The digits after the point; empty when there is no point. -/
  fraction : List Char
  /-- The exponent, if one is written: whether it is negative, and its digits. -/
  exponent : Option (Bool × List Char)
  deriving DecidableEq

/-- The numbers of JSON values. -/
inductive Number where
  | int (value : Int)
  | float (value : Float)
  deriving DecidableEq

namespace Numeral

/-- Reads the exponent after its letter. -/
def exponentOf? (cs : List Char) : Option (Bool × List Char) :=
  let (negative, digits) := match cs with
    | '-' :: rest => (true, rest)
    | '+' :: rest => (false, rest)
    | rest => (false, rest)
  if digits.isEmpty || !digits.all Char.isDigit then none else some (negative, digits)

/-- Reads what follows the whole part: nothing, a fraction, an exponent, or both. -/
def afterWhole? (negative : Bool) (whole : List Char) : List Char → Option Numeral
  | [] => some ⟨negative, whole, [], none⟩
  | '.' :: rest =>
    let fraction := rest.takeWhile Char.isDigit
    if fraction.isEmpty then none
    else match rest.dropWhile Char.isDigit with
      | [] => some ⟨negative, whole, fraction, none⟩
      | c :: digits =>
        if c = 'e' ∨ c = 'E' then
          (exponentOf? digits).map fun e => ⟨negative, whole, fraction, some e⟩
        else none
  | c :: digits =>
    if c = 'e' ∨ c = 'E' then (exponentOf? digits).map fun e => ⟨negative, whole, [], some e⟩
    else none

/-- Reads a numeral that takes up all of `cs`. Its whole part starts with `0` only when it is
`0`. -/
def ofChars? (cs : List Char) : Option Numeral :=
  let (negative, unsigned) := match cs with
    | '-' :: rest => (true, rest)
    | rest => (false, rest)
  match unsigned.takeWhile Char.isDigit with
  | [] => none
  | '0' :: _ :: _ => none
  | whole => afterWhole? negative whole (unsigned.dropWhile Char.isDigit)

/-- A numeral as it is written out; an exponent always has a sign. -/
def render (n : Numeral) : String :=
  (if n.negative then "-" else "") ++ String.ofList n.whole ++
    (if n.fraction.isEmpty then "" else "." ++ String.ofList n.fraction) ++
    match n.exponent with
    | none => ""
    | some (negative, digits) => (if negative then "e-" else "e+") ++ String.ofList digits

def digitValue (c : Char) : Nat :=
  c.toNat - '0'.toNat

/-- Appends digits to `significand` as long as the result fits 64 bits: the result, and how
many digits were taken. -/
def absorb (significand : Nat) : List Char → Nat × Nat
  | [] => (significand, 0)
  | c :: rest =>
    if significand * 10 + digitValue c < UInt64.size then
      let (total, taken) := absorb (significand * 10 + digitValue c) rest
      (total, taken + 1)
    else (significand, 0)

/-- `10 ^ n` as a double. -/
def powerOfTen (n : Nat) : Float :=
  Float.ofScientific 1 false n

/-- Divides `rounds` times by `10 ^ 308`, stopping at zero. -/
def divideDown : Nat → Float → Float
  | 0, f => f
  | rounds + 1, f => if f == 0 then f else divideDown rounds (f / powerOfTen 308)

/-- `significand · 10 ^ exponent` in double arithmetic; `none` when it is too large. -/
def scale? (significand : Nat) (exponent : Int) : Option Float :=
  let f := significand.toUInt64.toFloat
  if 0 ≤ exponent then
    if exponent.toNat ≤ 308 then
      let scaled := f * powerOfTen exponent.toNat
      if scaled.isInf then none else some scaled
    else if f == 0 then some f
    else none
  else
    let down := (-exponent).toNat
    let rounds := (down - 1) / 308
    some (divideDown rounds f / powerOfTen (down - 308 * rounds))

/-- The double that `n` stands for, leaving its sign aside. An exponent beyond 31 bits makes
any numeral too large or zero. -/
def magnitude? (n : Numeral) : Option Float :=
  let (start, taken) := absorb 0 n.whole
  let (significand, places) := absorb start n.fraction
  let shift : Int := (n.whole.length - taken : Nat) - places
  match n.exponent with
  | none => scale? significand shift
  | some (negative, digits) =>
    let e := Nat.ofDigitChars 10 digits 0
    if Nat.pow 2 31 ≤ e then
      if significand = 0 ∨ negative then some 0 else none
    else scale? significand (if negative then shift - e else shift + e)

/-- The number that `n` stands for. -/
def number? (n : Numeral) : Option Number :=
  let signed (f : Float) : Number := .float (if n.negative then -f else f)
  if n.fraction.isEmpty && n.exponent.isNone then
    let value := Nat.ofDigitChars 10 n.whole 0
    if !n.negative && decide (value < UInt64.size) then some (.int value)
    else if n.negative && decide (0 < value ∧ value ≤ Nat.pow 2 63) then some (.int (-value))
    else n.magnitude?.map signed
  else n.magnitude?.map signed

/-- The value of a numeral written as a nonnegative integer below `bound`. -/
def unsigned? (bound : Nat) (n : Numeral) : Option Nat :=
  if n.negative || !n.fraction.isEmpty || n.exponent.isSome then none
  else
    let value := Nat.ofDigitChars 10 n.whole 0
    if value < bound then some value else none

def ofNat (n : Nat) : Numeral :=
  ⟨false, Nat.toDigits 10 n, [], none⟩

def ofInt (i : Int) : Numeral :=
  ⟨decide (i < 0), Nat.toDigits 10 i.natAbs, [], none⟩

/-- How a decimal is laid out: positionally with at least one digit after the point while it
is at least `10 ^ -5` and below `10 ^ 16`, otherwise one digit before the point and an
exponent. -/
def ofScaled (negative : Bool) (d : Decimal.Scaled) : Numeral :=
  let digits := Nat.toDigits 10 d.digits
  let point := (digits.length : Int) + d.exponent
  if d.digits = 0 then ⟨negative, ['0'], ['0'], none⟩
  else if 0 ≤ d.exponent ∧ point ≤ 16 then
    ⟨negative, digits ++ List.replicate d.exponent.toNat '0', ['0'], none⟩
  else if 0 < point ∧ point ≤ 16 then
    ⟨negative, digits.take point.toNat, digits.drop point.toNat, none⟩
  else if -5 < point ∧ point ≤ 0 then
    ⟨negative, ['0'], List.replicate (-point).toNat '0' ++ digits, none⟩
  else
    let e := point - 1
    ⟨negative, digits.take 1, digits.drop 1, some (decide (e < 0), Nat.toDigits 10 e.natAbs)⟩

/-- A finite double with the fewest digits that read back. -/
def ofFloat (f : Float) : Numeral :=
  let bits := f.toBits
  ofScaled (decide (Nat.pow 2 63 ≤ bits.toNat)) (Decimal.shortest (Decimal.Binary.ofBits bits))

end Numeral

end Statechart.Json
