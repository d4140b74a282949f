import Peephole.Decimal.Reading
import Peephole.Source.Pattern
import Peephole.Source.Token

/-!
# Cutting text into tokens

`Lexer.rules` is the table of the patterns of tokens, of what is skipped (white space and comments)
and of texts that are never closed. `Lexer.piece` reads one piece at the start of a text: the
longest match of the table, and of several rules with a match of this length the one of the highest
priority. So a word that spells a keyword is one, and a longer word is not. A character with which
no rule begins is a piece of its own and belongs to no token. The result gives the number of
characters that the piece has after its first one, so that the pieces of a text always join up to
the text.

`tokenize` gives the tokens and failures of a text with the lines on which they start; lines are
counted by line feeds.
-/

set_option autoImplicit false
set_option relaxedAutoImplicit false

namespace Peephole.Source

/-- What a piece of text is. -/
inductive Piece where
  | skipped
  | token (token : Token)
  | invalid

namespace Lexer

/-! ### The table -/

/-- What a rule of the table is for. -/
inductive Kind where
  | skipped
  | mark (mark : Mark)
  | float
  | integer
  | string
  | identifier
  /-- A string or a comment without an end. -/
  | unclosed
deriving DecidableEq, Repr

/-- A kind of piece with a pattern of its texts. -/
structure TokenRule where
  kind : Kind
  pattern : Pattern
deriving DecidableEq, Repr

open Pattern

def blank : CharSet :=
  .of [' ', '\t', '\r', '\n']

def digit : CharSet :=
  ⟨[('0', '9')], false⟩

def letter : CharSet :=
  ⟨[('a', 'z'), ('A', 'Z'), ('_', '_')], false⟩

/-- The characters of an identifier after its first one. -/
def wordChar : CharSet :=
  ⟨[('a', 'z'), ('A', 'Z'), ('0', '9'), ('_', '_')], false⟩

def digits : Pattern :=
  repeated (one digit)

def exponent : Pattern :=
  seq (one (.of ['e', 'E'])) (seq (optional (one (.of ['+', '-']))) digits)

def lineComment : Pattern :=
  seq (literal "//") (many (one (.except ['\n'])))

/-- A comment, in which stars are counted: it ends at the first slash that follows a star. -/
def blockComment : Pattern :=
  seq (literal "/*") (seq (many (one (.except ['*']))) (seq (repeated (char '*'))
    (seq (many (seq (one (.except ['/', '*'])) (seq (many (one (.except ['*'])))
      (repeated (char '*'))))) (char '/'))))

/-- The beginning of a comment, as far as it is not closed. -/
def unclosedComment : Pattern :=
  seq (literal "/*") (seq (many (either (one (.except ['*']))
    (seq (repeated (char '*')) (one (.except ['/', '*']))))) (many (char '*')))

/-- A float with a point, after which there may be digits and an exponent. -/
def pointFloat : Pattern :=
  seq digits (seq (char '.') (seq (many (one digit)) (optional exponent)))

def exponentFloat : Pattern :=
  seq digits exponent

def quoted : Pattern :=
  seq (char '"') (seq (many (one (.except ['"']))) (char '"'))

def unclosedString : Pattern :=
  seq (char '"') (many (one (.except ['"'])))

def word : Pattern :=
  seq (one letter) (many (one wordChar))

/-- The spellings of the marks. -/
def spellings : List (String × Mark) :=
  [("OPENQASM", .version), ("include", .inclusion), ("qubit", .qubit), ("ctrl", .ctrl),
    ("negctrl", .negctrl), ("qif", .qif), ("do", .begin), ("end", .close), ("pi", .pi), ("π", .pi),
    ("+", .plus), ("-", .minus), ("*", .star), ("/", .slash), ("@", .atSign), ("(", .leftParen),
    (")", .rightParen), ("[", .leftBracket), ("]", .rightBracket), (";", .semicolon), (",", .comma)]

def rules : List TokenRule :=
  [⟨.skipped, repeated (one blank)⟩, ⟨.skipped, lineComment⟩, ⟨.skipped, blockComment⟩,
    ⟨.float, pointFloat⟩, ⟨.float, exponentFloat⟩, ⟨.integer, digits⟩, ⟨.string, quoted⟩,
    ⟨.identifier, word⟩, ⟨.unclosed, unclosedComment⟩, ⟨.unclosed, unclosedString⟩] ++
  spellings.map fun spelling ↦ ⟨.mark spelling.2, literal spelling.1⟩

/-! ### What a piece says -/

/-- The value of a row of digits. -/
def digitsValue (ds : List Char) : Nat :=
  ds.foldl (fun n c ↦ 10 * n + (c.toNat - '0'.toNat)) 0

/-- The largest integer literal. -/
def maxInt : Nat :=
  UInt64.size - 1

/-- The value of an exponent that begins with its marker; without one it is zero. -/
def exponentValue : List Char → Int
  | _ :: '-' :: ds => -digitsValue ds
  | _ :: '+' :: ds => digitsValue ds
  | _ :: ds => digitsValue ds
  | [] => 0

/-- The number that a float stands for. -/
def floatValue (text : List Char) : Float :=
  let numeral := text.takeWhile fun c ↦ c.isDigit || c = '.'
  let places := (numeral.dropWhile (· ≠ '.')).tail.length
  Decimal.nearest (digitsValue (numeral.filter (· ≠ '.')))
    (exponentValue (text.drop numeral.length) - places)

/-- What a text of a kind is. An integer must not be too large. -/
def Kind.piece : Kind → List Char → Piece
  | skipped, _ => .skipped
  | mark m, _ => .token (.mark m)
  | float, text => .token (.float (floatValue text))
  | integer, text =>
    if digitsValue text ≤ maxInt then .token (.int (digitsValue text)) else .invalid
  | string, text => .token (.string (String.ofList text.tail.dropLast))
  | identifier, text => .token (.identifier (String.ofList text))
  | unclosed, _ => .invalid

/-! ### The longest match -/

/-- Whether a match is longer than another one, or as long and of higher priority. -/
def outranks (a b : TokenRule × Nat) : Bool :=
  b.2 < a.2 || a.2 = b.2 && b.1.pattern.priority < a.1.pattern.priority

/-- The longest match of a table at the start of a text, with its length. -/
def choose (cs : List Char) : List TokenRule → Option (TokenRule × Nat)
  | [] => none
  | rule :: rules =>
    match rule.pattern.longest cs, choose cs rules with
    | none, best => best
    | some n, none => some (rule, n)
    | some n, some other => some (if outranks other (rule, n) then other else (rule, n))

/-- The first piece of the text `c :: cs`, with the number of its characters after `c`. -/
def piece (c : Char) (cs : List Char) : Piece × Nat :=
  match choose (c :: cs) rules with
  | some (rule, n) => (rule.kind.piece ((c :: cs).take n), n - 1)
  | none => (.invalid, 0)

end Lexer

/-- A text that belongs to no token, with the line on which it starts. -/
structure LexerFault where
  line : Nat
  text : String
deriving DecidableEq, Inhabited

def LexerFault.message (f : LexerFault) : String :=
  "Invalid token: '" ++ f.text ++ "'"

/-- The tokens and failures of a text whose first line has the given number. -/
def tokenizeFrom (line : Nat) : List Char → List (Except LexerFault Located)
  | [] => []
  | c :: cs =>
    let (piece, more) := Lexer.piece c cs
    let text := c :: cs.take more
    let rest := tokenizeFrom (line + text.count '\n') (cs.drop more)
    match piece with
    | .skipped => rest
    | .token token => .ok ⟨line, token⟩ :: rest
    | .invalid => .error ⟨line, String.ofList text⟩ :: rest
termination_by cs => cs.length
decreasing_by
  simp only [List.length_drop, List.length_cons]
  omega

/-- The tokens and failures of a text. -/
def tokenize (source : String) : List (Except LexerFault Located) :=
  tokenizeFrom 1 source.toList

end Peephole.Source
