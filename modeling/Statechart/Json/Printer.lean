import Statechart.Json.Value

/-!
Trees as texts, in two layouts. The compact one has no blanks at all; the indented one puts
every item and member on a line of its own, two spaces deeper than its container, with a space
after the colon, and leaves empty containers on one line.
-/

namespace Statechart.Json

/-- `value` as four hexadecimal digits. -/
def fourDigits (value : Nat) : String :=
  String.ofList ([value / 4096 % 16, value / 256 % 16, value / 16 % 16, value % 16].map
    Nat.digitChar)

/-- One piece as it stands between quotation marks: only quotation marks, backslashes and
controls are escaped. -/
def Piece.render : Piece → String
  | .unit value => "\\u" ++ fourDigits value
  | .char c =>
    if c = '"' then "\\\""
    else if c = '\\' then "\\\\"
    else if c = '\x08' then "\\b"
    else if c = '\x0c' then "\\f"
    else if c = '\n' then "\\n"
    else if c = '\r' then "\\r"
    else if c = '\t' then "\\t"
    else if c.toNat < 0x20 then "\\u" ++ fourDigits c.toNat
    else c.toString

def renderText (pieces : List Piece) : String :=
  "\"" ++ String.join (pieces.map Piece.render) ++ "\""

namespace Tree

mutual
/-- The tree without blanks. -/
def compact : Tree → String
  | .null => "null"
  | .bool b => if b then "true" else "false"
  | .number n => n.render
  | .text pieces => renderText pieces
  | .list xs => "[" ++ ",".intercalate (compactItems xs) ++ "]"
  | .object ms => "\x7b" ++ ",".intercalate (compactMembers ms) ++ "\x7d"
def compactItems : List Tree → List String
  | [] => []
  | x :: xs => compact x :: compactItems xs
def compactMembers : List (List Piece × Tree) → List String
  | [] => []
  | (key, x) :: ms => (renderText key ++ ":" ++ compact x) :: compactMembers ms
end

/-- A line break and the indentation of a line `depth` containers deep. -/
def lineAt (depth : Nat) : String :=
  "\n" ++ String.ofList (List.replicate (2 * depth) ' ')

/-- The parts of a container `depth` deep between its brackets, a line for each. -/
def block (opening closing : String) (depth : Nat) (parts : List String) : String :=
  if parts.isEmpty then opening ++ closing
  else
    opening ++ lineAt (depth + 1) ++ ("," ++ lineAt (depth + 1)).intercalate parts ++
      lineAt depth ++ closing

mutual
/-- The tree on indented lines, standing `depth` containers deep. -/
def indentedAt (depth : Nat) : Tree → String
  | .null => "null"
  | .bool b => if b then "true" else "false"
  | .number n => n.render
  | .text pieces => renderText pieces
  | .list xs => block "[" "]" depth (indentedItems (depth + 1) xs)
  | .object ms => block "\x7b" "\x7d" depth (indentedMembers (depth + 1) ms)
def indentedItems (depth : Nat) : List Tree → List String
  | [] => []
  | x :: xs => indentedAt depth x :: indentedItems depth xs
def indentedMembers (depth : Nat) : List (List Piece × Tree) → List String
  | [] => []
  | (key, x) :: ms =>
    (renderText key ++ ": " ++ indentedAt depth x) :: indentedMembers depth ms
end

def indented (tree : Tree) : String :=
  tree.indentedAt 0

end Tree

/-- The compact text of a value. -/
def Value.compact (v : Value) : String :=
  v.toTree.compact

/-- A value as part of a message or a name: a text as it is, anything else in compact form. -/
def Value.display : Value → String
  | .text s => s
  | v => v.compact

end Statechart.Json
