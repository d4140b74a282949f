import Peephole.Decimal.Layout

/-!
# Tokens

The tokens of program text: fixed marks (keywords, operators and punctuation), numbers, strings and
identifiers. `Token.render` gives the text by which messages refer to a token.
-/

set_option autoImplicit false
set_option relaxedAutoImplicit false

namespace Peephole.Source

/-- A token with a fixed spelling. -/
inductive Mark where
  | version
  | inclusion
  | qubit
  | ctrl
  | negctrl
  | qif
  | begin
  | close
  | pi
  | plus
  | minus
  | star
  | slash
  | atSign
  | leftParen
  | rightParen
  | leftBracket
  | rightBracket
  | semicolon
  | comma
deriving DecidableEq, Repr, Inhabited

namespace Mark

/-- The spelling of a mark. -/
def text : Mark → String
  | version => "OPENQASM"
  | inclusion => "include"
  | qubit => "qubit"
  | ctrl => "ctrl"
  | negctrl => "negctrl"
  | qif => "qif"
  | begin => "do"
  | close => "end"
  | pi => "pi"
  | plus => "+"
  | minus => "-"
  | star => "*"
  | slash => "/"
  | atSign => "@"
  | leftParen => "("
  | rightParen => ")"
  | leftBracket => "["
  | rightBracket => "]"
  | semicolon => ";"
  | comma => ","

end Mark

/-- A token of program text. -/
inductive Token where
  | mark (mark : Mark)
  | float (value : Float)
  | int (value : Nat)
  | string (content : String)
  | identifier (name : String)
deriving BEq, DecidableEq, Inhabited

/-- The text by which messages refer to a token. -/
def Token.render : Token → String
  | mark m => m.text
  | float x => Decimal.Layout.plain.render x
  | int n => Nat.repr n
  | string s => "\"" ++ s ++ "\""
  | identifier name => name

/-- A token with the line on which it starts. -/
structure Located where
  line : Nat
  token : Token
deriving BEq, Inhabited

end Peephole.Source
