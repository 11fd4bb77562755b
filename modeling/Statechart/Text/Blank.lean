/-!
Blank characters, and the two things a chart does with them: an attribute that
names several events or states is split at runs of blanks, and an expression is
trimmed of the blanks around it.
-/

namespace Statechart.Text

/-- The characters with the Unicode property White_Space. -/
def isBlank (c : Char) : Bool :=
  let n := c.toNat
  n == 0x20 || (0x09 ≤ n && n ≤ 0x0D) || n == 0x85 || n == 0xA0 || n == 0x1680 ||
    (0x2000 ≤ n && n ≤ 0x200A) || n == 0x2028 || n == 0x2029 || n == 0x202F ||
    n == 0x205F || n == 0x3000

/-- The characters of `s` without the blanks in front. -/
def trimStart (s : List Char) : List Char :=
  s.dropWhile isBlank

/-- The characters of `s` without the blanks at either end. -/
def trimBlanks (s : List Char) : List Char :=
  (trimStart (trimStart s).reverse).reverse

/-- `s` without the blanks at either end. -/
def trim (s : String) : String :=
  String.ofList (trimBlanks s.toList)

/-- The words of a text, where `word` holds the letters of the current word, newest first. -/
def wordsFrom (word : List Char) : List Char → List String
  | [] => if word.isEmpty then [] else [String.ofList word.reverse]
  | c :: rest =>
    if isBlank c then
      if word.isEmpty then wordsFrom [] rest
      else String.ofList word.reverse :: wordsFrom [] rest
    else wordsFrom (c :: word) rest

/-- The maximal runs of characters that are not blank, in order. -/
def words (s : String) : List String :=
  wordsFrom [] s.toList

end Statechart.Text
