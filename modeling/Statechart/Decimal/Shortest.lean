/-!
The decimal with the fewest digits that reads back as a given double. Digits are chosen in
exact integer arithmetic: a double stands for every real between the midpoints to its two
neighbours, and of the decimals in that interval the one with the fewest digits is taken,
the nearest of those if there are two.
-/

namespace Statechart.Decimal

/-- The finite nonnegative double `mantissa · 2 ^ exponent`. -/
structure Binary where
  mantissa : Nat
  exponent : Int
  /-- The gap to the double below is half the gap to the double above. -/
  narrowBelow : Bool
  deriving DecidableEq

/-- Reads the bits of a double, its sign apart: eleven bits of exponent over fifty-two bits of
fraction. -/
def Binary.ofBits (bits : UInt64) : Binary :=
  let fraction : Nat := bits.toNat % Nat.pow 2 52
  let biased : Nat := bits.toNat / Nat.pow 2 52 % Nat.pow 2 11
  if biased = 0 then ⟨fraction, -1074, false⟩
  else ⟨Nat.pow 2 52 + fraction, (biased : Int) - 1075, fraction == 0 && decide (1 < biased)⟩

/-- The nonnegative decimal `digits · 10 ^ exponent`. -/
structure Scaled where
  digits : Nat
  exponent : Int
  deriving DecidableEq

/-- `base ^ exponent` as a fraction: the power over one, or one over the power. -/
def powerOver (base : Nat) (exponent : Int) : Nat × Nat :=
  if 0 ≤ exponent then (Nat.pow base exponent.toNat, 1) else (1, Nat.pow base (-exponent).toNat)

/-- Whether `d` lies between the midpoints to the neighbours of `b`. The midpoints themselves
belong to the interval when the mantissa is even. All three are compared in quarters of the
last binary place. -/
def Scaled.readsBack (d : Scaled) (b : Binary) : Bool :=
  let (up, down) := powerOver 2 (b.exponent - 2)
  let (tens, tenths) := powerOver 10 d.exponent
  let value := d.digits * tens * down
  let low := (4 * b.mantissa - (if b.narrowBelow then 1 else 2)) * up * tenths
  let high := (4 * b.mantissa + 2) * up * tenths
  if b.mantissa % 2 = 0 then decide (low ≤ value) && decide (value ≤ high)
  else decide (low < value) && decide (value < high)

/-- The exponent of the leading digit of `num / den`, a positive fraction. -/
def leadingExponent (num den : Nat) : Int :=
  if den ≤ num then ((Nat.toDigits 10 (num / den)).length : Int) - 1
  else
    match (List.range 400).find? (fun j => decide (den ≤ num * Nat.pow 10 j)) with
    | some j => -(j : Int)
    | none => -400

/-- Moves zeros at the end of the digits into the exponent. -/
def stripZeros : Nat → Scaled → Scaled
  | 0, d => d
  | fuel + 1, d =>
    if d.digits ≠ 0 ∧ d.digits % 10 = 0 then stripZeros fuel ⟨d.digits / 10, d.exponent + 1⟩
    else d

/-- The nearer of the two multiples of `10 ^ exponent` around `b` that reads back as `b`; of
two at the same distance the one whose last digit is even. -/
def onGrid (b : Binary) (exponent : Int) : Option Scaled :=
  let (up, down) := powerOver 2 b.exponent
  let (tens, tenths) := powerOver 10 exponent
  let num := b.mantissa * up * tenths
  let den := down * tens
  let below : Scaled := ⟨num / den, exponent⟩
  let above : Scaled := ⟨num / den + 1, exponent⟩
  match below.readsBack b, above.readsBack b with
  | true, true =>
    let rest := 2 * (num % den)
    if rest < den then some below
    else if den < rest then some above
    else if below.digits % 2 = 0 then some below else some above
  | true, false => some below
  | false, true => some above
  | false, false => none

/-- The decimal with the fewest digits that reads back as `b`. -/
def shortest (b : Binary) : Scaled :=
  if b.mantissa = 0 then ⟨0, 0⟩
  else
    let (up, down) := powerOver 2 b.exponent
    let top := leadingExponent (b.mantissa * up) down
    let found := (List.range 17).findSome? (fun n : Nat => onGrid b (top - n))
    stripZeros 20 (found.getD ⟨0, 0⟩)

end Statechart.Decimal
