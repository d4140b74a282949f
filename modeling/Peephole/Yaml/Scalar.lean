import Peephole.Text.Digits

/-!
# YAML scalars

A scalar is a text in one of five styles. What it stands for depends on the style: only a plain scalar
can stand for nothing or for a number.
-/

set_option autoImplicit false
set_option relaxedAutoImplicit false

namespace Peephole.Yaml

/-- How a scalar is written. -/
inductive ScalarStyle where
  | plain
  | singleQuoted
  | doubleQuoted
  | literal
  | folded
deriving DecidableEq, Repr

/-- A text with the way it is written. -/
structure Scalar where
  text : List Char
  style : ScalarStyle
deriving DecidableEq, Repr

/-- The plain scalar without a character, which stands where a value is left out. -/
def Scalar.empty : Scalar :=
  ⟨[], .plain⟩

/-- The words that stand for nothing. -/
def isNull (cs : List Char) : Bool :=
  cs = ['~'] || cs = "null".toList || cs = "Null".toList || cs = "NULL".toList

/-- An unsigned number: decimal without leading zeros, or with a mark for another base. -/
def unsigned? (cs : List Char) : Option Nat :=
  let body := match cs with
    | '+' :: rest => rest
    | _ => cs
  match body with
  | '0' :: 'x' :: rest => Text.number? 16 rest
  | '0' :: 'o' :: rest => Text.number? 8 rest
  | '0' :: 'b' :: rest => Text.number? 2 rest
  | '0' :: _ :: _ => none
  | _ => Text.number? 10 body

/-- The line breaks between two parts of a scalar: one break is a space, and of several the first one
is dropped. Only a line feed is folded in that way. -/
def fold (first more : List Char) : List Char :=
  if first = ['\n'] then if more.isEmpty then [' '] else more
  else first ++ more

end Peephole.Yaml
