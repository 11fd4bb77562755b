import Statechart.Json.Numeral

/-!
JSON texts as trees. A tree keeps what the text says before any meaning is given to it:
repeated keys, numerals as they are written, and texts by the pieces between their quotation
marks. Reading goes through tokens; a machine with a stack of open containers turns tokens
into a tree, so nesting is bounded only by the text.
-/

namespace Statechart.Json

/-- One element of a text between quotation marks: a character, written as it is or by an
escape, or a 16-bit unit written by its four hexadecimal digits. -/
inductive Piece where
  | char (c : Char)
  | unit (value : Nat)
  deriving DecidableEq

inductive Token where
  | openList | closeList | openObject | closeObject | colon | comma
  | null
  | bool (value : Bool)
  | number (numeral : Numeral)
  | text (pieces : List Piece)
  deriving DecidableEq

/-- A JSON text without a meaning yet. -/
inductive Tree where
  | null
  | bool (value : Bool)
  | number (numeral : Numeral)
  | text (pieces : List Piece)
  | list (items : List Tree)
  | object (members : List (List Piece × Tree))

namespace Token

/-- The blanks that may stand between tokens. -/
def isSpace (c : Char) : Bool :=
  c == ' ' || c == '\n' || c == '\t' || c == '\r'

/-- The token of a word: a literal name or a numeral. -/
def ofWord? (word : List Char) : Option Token :=
  if word = ['n', 'u', 'l', 'l'] then some .null
  else if word = ['t', 'r', 'u', 'e'] then some (.bool true)
  else if word = ['f', 'a', 'l', 's', 'e'] then some (.bool false)
  else (Numeral.ofChars? word).map .number

def ofMark? (c : Char) : Option Token :=
  match c with
  | '[' => some .openList
  | ']' => some .closeList
  | '\x7b' => some .openObject
  | '\x7d' => some .closeObject
  | ':' => some .colon
  | ',' => some .comma
  | _ => none

/-- The character that a backslash and `c` stand for. -/
def escaped? (c : Char) : Option Char :=
  match c with
  | '"' => some '"'
  | '\\' => some '\\'
  | '/' => some '/'
  | 'b' => some '\x08'
  | 'f' => some '\x0c'
  | 'n' => some '\n'
  | 'r' => some '\r'
  | 't' => some '\t'
  | _ => none

def hexDigit? (c : Char) : Option Nat :=
  if '0' ≤ c ∧ c ≤ '9' then some (c.toNat - '0'.toNat)
  else if 'a' ≤ c ∧ c ≤ 'f' then some (c.toNat - 'a'.toNat + 10)
  else if 'A' ≤ c ∧ c ≤ 'F' then some (c.toNat - 'A'.toNat + 10)
  else none

/-- What the scanner is in the middle of. Letters and pieces are kept newest first. -/
inductive Mode where
  | between
  | word (letters : List Char)
  | text (pieces : List Piece)
  | escape (pieces : List Piece)
  /-- Inside the digits of a unit: how many are still to come after the next one, and the value
  of those before it. -/
  | unit (pieces : List Piece) (toCome : Nat) (value : Nat)

/-- Reads one character outside of texts, when no word is open: the tokens it completes and
the mode after it. -/
def start? (c : Char) : Option (List Token × Mode) :=
  if isSpace c then some ([], .between)
  else if c = '"' then some ([], .text [])
  else match ofMark? c with
    | some token => some ([token], .between)
    | none => some ([], .word [c])

def isWordEnd (c : Char) : Bool :=
  isSpace c || c == '"' || (ofMark? c).isSome

/-- Reads one character: the tokens it completes and the mode after it. -/
def step? : Mode → Char → Option (List Token × Mode)
  | .between, c => start? c
  | .word letters, c =>
    if isWordEnd c then do
      let token ← ofWord? letters.reverse
      let (tokens, mode) ← start? c
      some (token :: tokens, mode)
    else some ([], .word (c :: letters))
  | .text pieces, c =>
    if c = '"' then some ([.text pieces.reverse], .between)
    else if c = '\\' then some ([], .escape pieces)
    else if c.toNat < 0x20 then none
    else some ([], .text (.char c :: pieces))
  | .escape pieces, c =>
    if c = 'u' then some ([], .unit pieces 3 0)
    else (escaped? c).map fun e => ([], .text (.char e :: pieces))
  | .unit pieces toCome value, c => do
    let digit ← hexDigit? c
    match toCome with
    | 0 => some ([], .text (.unit (value * 16 + digit) :: pieces))
    | n + 1 => some ([], .unit pieces n (value * 16 + digit))

/-- The tokens of `cs`, read from `mode` on; `none` when the text breaks off or holds
something that is no token. -/
def scanFrom : Mode → List Char → Option (List Token)
  | .between, [] => some []
  | .word letters, [] => (ofWord? letters.reverse).map ([·])
  | _, [] => none
  | mode, c :: rest => do
    let (tokens, next) ← step? mode c
    let others ← scanFrom next rest
    some (tokens ++ others)

def scan (text : String) : Option (List Token) :=
  scanFrom .between text.toList

end Token

namespace Tree

/-- A container whose end has not been read yet: the items of a list, or the members of an
object and the key of the value being read. Newest first. -/
inductive Frame where
  | list (items : List Tree)
  | member (members : List (List Piece × Tree)) (key : List Piece)

/-- What may come next. -/
inductive Goal where
  /-- A value. -/
  | value (stack : List Frame)
  /-- The first item of a list, or its end. -/
  | item (stack : List Frame)
  /-- A key. -/
  | key (members : List (List Piece × Tree)) (stack : List Frame)
  /-- The first key of an object, or its end. -/
  | firstKey (stack : List Frame)
  | colon (members : List (List Piece × Tree)) (key : List Piece) (stack : List Frame)
  /-- What follows the value `tree`: a comma, the end of the container it is in, or the end of
  the text. -/
  | after (tree : Tree) (stack : List Frame)

/-- Reads a token where a value must stand. -/
def value? (stack : List Frame) : Token → Option Goal
  | .null => some (.after .null stack)
  | .bool b => some (.after (.bool b) stack)
  | .number n => some (.after (.number n) stack)
  | .text pieces => some (.after (.text pieces) stack)
  | .openList => some (.item stack)
  | .openObject => some (.firstKey stack)
  | _ => none

/-- Reads a token after the value `tree`. -/
def after? (tree : Tree) : List Frame → Token → Option Goal
  | .list items :: stack, .comma => some (.value (.list (tree :: items) :: stack))
  | .list items :: stack, .closeList => some (.after (.list (tree :: items).reverse) stack)
  | .member members key :: stack, .comma => some (.key ((key, tree) :: members) stack)
  | .member members key :: stack, .closeObject =>
    some (.after (.object ((key, tree) :: members).reverse) stack)
  | _, _ => none

def step? : Goal → Token → Option Goal
  | .value stack, token => value? stack token
  | .item stack, .closeList => some (.after (.list []) stack)
  | .item stack, token => value? (.list [] :: stack) token
  | .key members stack, .text pieces => some (.colon members pieces stack)
  | .firstKey stack, .text pieces => some (.colon [] pieces stack)
  | .firstKey stack, .closeObject => some (.after (.object []) stack)
  | .colon members key stack, .colon => some (.value (.member members key :: stack))
  | .after tree stack, token => after? tree stack token
  | _, _ => none

/-- The tree that `tokens` spell out, if they spell out exactly one. -/
def ofTokens? (tokens : List Token) : Option Tree :=
  match tokens.foldlM step? (.value []) with
  | some (.after tree []) => some tree
  | _ => none

/-- Reads a whole text. -/
def read (text : String) : Option Tree :=
  (Token.scan text).bind ofTokens?

end Tree

/-- The characters that `pieces` stand for. A unit that is half of a surrogate pair must be
followed or preceded by its other half. -/
def textOf? : List Piece → Option (List Char)
  | [] => some []
  | .char c :: rest => (textOf? rest).map (c :: ·)
  | .unit high :: rest =>
    if 0xD800 ≤ high ∧ high < 0xDC00 then
      match rest with
      | .unit low :: rest =>
        if 0xDC00 ≤ low ∧ low < 0xE000 then
          (textOf? rest).map
            (Char.ofNat (0x10000 + (high - 0xD800) * 0x400 + (low - 0xDC00)) :: ·)
        else none
      | _ => none
    else if 0xDC00 ≤ high ∧ high < 0xE000 then none
    else (textOf? rest).map (Char.ofNat high :: ·)

/-- The pieces of a text in which every character stands for itself. -/
def piecesOf (s : String) : List Piece :=
  s.toList.map .char

end Statechart.Json
