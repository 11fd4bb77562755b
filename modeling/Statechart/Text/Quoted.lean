import Statechart.Text.Unprintable

/-!
Lists of ids as messages show them: `["a", "b"]`, every id between quotation marks. A
quotation mark, a backslash and the common controls are escaped by a backslash and one
character; any other unprintable character is written by its code point in lower-case
hexadecimal between braces.
-/

namespace Statechart.Text

/-- The digits of `n` in base sixteen, most significant first and without padding. -/
def hex (n : Nat) : String :=
  String.ofList (Nat.toDigits 16 n)

/-- One character as it stands between quotation marks. -/
def quoteChar (c : Char) : String :=
  if c = '"' then "\\\""
  else if c = '\\' then "\\\\"
  else if c = '\n' then "\\n"
  else if c = '\t' then "\\t"
  else if c = '\r' then "\\r"
  else if c.toNat = 0 then "\\0"
  else if isUnprintable c then "\\u\x7b" ++ hex c.toNat ++ "\x7d"
  else c.toString

def quote (s : String) : String :=
  "\"" ++ String.join (s.toList.map quoteChar) ++ "\""

/-- The quoted texts between brackets, separated by a comma and a space. -/
def quoteList (texts : List String) : String :=
  "[" ++ ", ".intercalate (texts.map quote) ++ "]"

end Statechart.Text
