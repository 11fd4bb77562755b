import Statechart.Json.Tree

/-!
Session ids: 128 bits written as thirty-two hexadecimal digits in five groups. They are read
with or without hyphens between the groups, with hyphens also in braces or as a name in the
namespace of such ids; every letter may be in either case. They are always written in lower
case with hyphens.
-/

namespace Statechart

structure SessionId where
  digits : List (Fin 16)
  length_digits : digits.length = 32
  deriving DecidableEq

namespace SessionId

/-- The lengths of the groups. -/
def groups : List Nat := [8, 4, 4, 4, 12]

/-- Puts hyphens between the groups. -/
def group : List Nat → List Char → List Char
  | [], _ => []
  | [n], cs => cs.take n
  | n :: rest, cs => cs.take n ++ '-' :: group rest (cs.drop n)

/-- Takes the hyphens between the groups out again. -/
def ungroup? : List Nat → List Char → Option (List Char)
  | [], cs => if cs.isEmpty then some [] else none
  | [n], cs => if cs.length = n then some cs else none
  | n :: rest, cs =>
    match cs.drop n with
    | '-' :: others => (ungroup? rest others).map (cs.take n ++ ·)
    | _ => none

/-- Reads thirty-two digits in either case. -/
def ofDigits? (cs : List Char) : Option SessionId :=
  match cs.mapM Json.Token.hexDigit? with
  | none => none
  | some values =>
    let digits : List (Fin 16) := values.map (Fin.ofNat 16)
    if h : digits.length = 32 then some ⟨digits, h⟩ else none

/-- What stands in front of an id that is written as a name, in lower case. -/
def urnMark : List Char := ['u', 'r', 'n', ':', 'u', 'u', 'i', 'd', ':']

/-- The part of a text that holds the groups with their hyphens. -/
def hyphenated? (cs : List Char) : Option (List Char) :=
  if cs.length = 36 then some cs
  else if cs.length = 38 ∧ cs.head? = some '\x7b' ∧ cs.getLast? = some '\x7d' then
    some (cs.drop 1).dropLast
  else if cs.length = 45 ∧ (cs.take urnMark.length).map Char.toLower = urnMark then
    some (cs.drop urnMark.length)
  else none

def parse? (text : String) : Option SessionId :=
  let cs := text.toList
  if cs.length = 32 then ofDigits? cs
  else (hyphenated? cs).bind fun inner => (ungroup? groups inner).bind ofDigits?

def render (id : SessionId) : String :=
  String.ofList (group groups (id.digits.map (fun d => Nat.digitChar d.val)))

end SessionId

end Statechart
