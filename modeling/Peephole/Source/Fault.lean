import Peephole.Source.Lexer

/-!
# Why a text is no program

`SourceFault` lists the causes for which a text is refused, and `SourceFault.message` gives each of
them its text.
-/

set_option autoImplicit false
set_option relaxedAutoImplicit false

namespace Peephole.Source

/-- What was looked for when something else was found. -/
inductive Expected where
  | mark (mark : Mark)
  | string
  | integer
  | identifier
  | expression
  | statement
deriving DecidableEq, Repr

def Expected.render : Expected → String
  | mark m => m.text
  | string => "\"\""
  | integer => "integer"
  | identifier => "identifier"
  | expression => "expression"
  | statement => "statement"

/-- What was looked for when the text ended. -/
inductive Missing where
  | expected (what : Expected)
  | versionNumber
  | blockEnd
deriving DecidableEq, Repr

def Missing.render : Missing → String
  | expected (.mark m) => "expected " ++ m.text
  | expected .string => "expected " ++ Expected.string.render
  | expected what => what.render
  | versionNumber => "version number"
  | blockEnd => "'end' closing qif block"

/-- Why a text is no program. -/
inductive SourceFault where
  | lexical (fault : LexerFault)
  | unexpectedToken (line : Nat) (expected : Expected) (found : Token)
  | unexpectedEnd (missing : Missing)
  | invalidVersion (text : String)
  | undefinedIdentifier (name : String)
  | duplicateDeclaration (name : String)
  | wrongQubitCount (gate : String) (expected found : Nat)
  | wrongParamCount (gate : String) (expected found : Nat)
  | wrongGuardCount (gate : String) (guards operands : Nat)
  | indexOutOfBounds (register : String) (index size : Nat)
  /-- A register is used without an index, or a single qubit with one. -/
  | indexMismatch (name : String) (needsIndex : Bool)
  | declarationInBlock (line : Nat)
  | registerSize (line : Nat)
  | modifierCount (line : Nat)
  | tooManyOperands (gate : String)
  /-- The numbers of guards that modifiers ask for do not add up in 64 bits. -/
  | overflow

/-- The largest register size, index and number of operands. -/
def maxSize : Nat :=
  UInt32.size - 1

namespace SourceFault

def message : SourceFault → String
  | lexical f => "Lexer error at line " ++ Nat.repr f.line ++ ": " ++ f.message
  | unexpectedToken line expected found =>
    "Unexpected token at line " ++ Nat.repr line ++ ": expected " ++ expected.render ++
      ", found " ++ found.render
  | unexpectedEnd missing => "Unexpected end of input: " ++ missing.render
  | invalidVersion text => "Invalid OPENQASM version: " ++ text
  | undefinedIdentifier name => "Undefined identifier: " ++ name
  | duplicateDeclaration name => "Duplicate declaration: " ++ name
  | wrongQubitCount gate expected found =>
    "Gate '" ++ gate ++ "' expects " ++ Nat.repr expected ++ " qubits, got " ++ Nat.repr found
  | wrongParamCount gate expected found =>
    "Gate '" ++ gate ++ "' expects " ++ Nat.repr expected ++ " parameters, got " ++ Nat.repr found
  | wrongGuardCount gate guards operands =>
    "Gate '" ++ gate ++ "' has " ++ Nat.repr guards ++ " guards but only " ++ Nat.repr operands ++
      " operands"
  | indexOutOfBounds register index size =>
    "Index " ++ Nat.repr index ++ " out of bounds for register '" ++ register ++ "' of size " ++
      Nat.repr size
  | indexMismatch name needsIndex =>
    "'" ++ name ++ "' must be used " ++ (if needsIndex then "with" else "without") ++ " an index"
  | declarationInBlock line =>
    "Parse error: line " ++ Nat.repr line ++ ": declarations are not allowed inside a qif block"
  | registerSize line =>
    "Parse error: line " ++ Nat.repr line ++ ": register size must be between 1 and " ++
      Nat.repr maxSize
  | modifierCount line =>
    "Parse error: line " ++ Nat.repr line ++ ": modifier count must be positive"
  | tooManyOperands gate => "Parse error: too many operands for '" ++ gate ++ "'"
  | overflow => "attempt to add with overflow"

end SourceFault

end Peephole.Source
