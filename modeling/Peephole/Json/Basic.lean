import Peephole.Decimal.Layout

/-!
# JSON values

A JSON value keeps its object members in order, repeated names included, and tells a whole number
from a number with a fraction or an exponent. `Json.compact` writes it without spaces and
`Json.pretty` on indented lines.

A text can hold well-formed values that have no such reading, for instance a number beyond all
bounds. They are read as `unreadable`: such a value does no harm where nobody asks for it.
-/

set_option autoImplicit false
set_option relaxedAutoImplicit false

namespace Peephole

/-- A JSON value. -/
inductive Json where
  | null
  | bool (value : Bool)
  | whole (value : Int)
  | real (value : Float)
  | string (value : String)
  | array (items : List Json)
  | object (members : List (String × Json))
  /-- A well-formed value out of reach. It is written as `null`. -/
  | unreadable
deriving Inhabited

namespace Json

/-- Numbers in JSON: the fewest digits that read back, positional from `0.00001` to below
`10 ^ 16`, with a fraction also for whole numbers; what is not finite is `null`. -/
def numberLayout : Decimal.Layout where
  tie := .toEven
  positional := fun e ↦ -5 ≤ e && e ≤ 15
  wholeEnding := ".0"
  infinity := "null"
  negativeInfinity := "null"
  notANumber := "null"

/-- A digit of a number below sixteen. -/
def hexDigit (n : Nat) : Char :=
  Char.ofNat (if n < 10 then '0'.toNat + n else 'a'.toNat + (n - 10))

/-- How a character is written in a string. -/
def escapeChar (c : Char) : List Char :=
  if c = '"' then ['\\', '"']
  else if c = '\\' then ['\\', '\\']
  else if c = '\n' then ['\\', 'n']
  else if c = '\r' then ['\\', 'r']
  else if c = '\t' then ['\\', 't']
  else if c.toNat = 0x8 then ['\\', 'b']
  else if c.toNat = 0xC then ['\\', 'f']
  else if c.toNat < 0x20 then
    ['\\', 'u', '0', '0', hexDigit (c.toNat / 16), hexDigit (c.toNat % 16)]
  else [c]

/-- A string in quotes. -/
def quote (s : String) : String :=
  "\"" ++ String.ofList (s.toList.flatMap escapeChar) ++ "\""

/-- How a value is spread over lines. -/
inductive Style where
  | compact
  | pretty
deriving DecidableEq, Repr

namespace Style

/-- The break before an item at a level of nesting. -/
def lineBreak : Style → Nat → String
  | compact, _ => ""
  | pretty, level => "\n" ++ String.ofList (List.replicate (2 * level) ' ')

def colon : Style → String
  | compact => ":"
  | pretty => ": "

end Style

mutual

/-- The text of a value at a level of nesting. -/
def write (style : Style) (level : Nat) : Json → String
  | null => "null"
  | unreadable => "null"
  | bool b => if b then "true" else "false"
  | whole n => n.repr
  | real x => numberLayout.render x
  | string s => quote s
  | array [] => "[]"
  | array (item :: items) =>
    "[" ++ style.lineBreak (level + 1) ++ write style (level + 1) item ++
      writeItems style (level + 1) items ++ style.lineBreak level ++ "]"
  | object [] => "\x7b\x7d"
  | object ((name, value) :: members) =>
    "\x7b" ++ style.lineBreak (level + 1) ++ quote name ++ style.colon ++
      write style (level + 1) value ++ writeMembers style (level + 1) members ++
      style.lineBreak level ++ "\x7d"

/-- The text of the further items of an array. -/
def writeItems (style : Style) (level : Nat) : List Json → String
  | [] => ""
  | item :: items =>
    "," ++ style.lineBreak level ++ write style level item ++ writeItems style level items

/-- The text of the further members of an object. -/
def writeMembers (style : Style) (level : Nat) : List (String × Json) → String
  | [] => ""
  | (name, value) :: members =>
    "," ++ style.lineBreak level ++ quote name ++ style.colon ++ write style level value ++
      writeMembers style level members

end

/-- The text of a value without spaces. -/
def compact (j : Json) : String :=
  j.write .compact 0

/-- The text of a value on indented lines. -/
def pretty (j : Json) : String :=
  j.write .pretty 0

end Json

end Peephole
