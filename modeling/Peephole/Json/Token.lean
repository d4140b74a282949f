import Peephole.Decimal.Reading
import Peephole.Json.Basic
import Peephole.Text.Digits

/-!
# JSON tokens

`Json.tokens?` cuts JSON text into brackets, commas, colons, strings and plain values. Strings are
decoded and numbers are read on the way: a whole number that fits 64 bits stays whole, and every
other number is read from as many leading digits as fit 64 bits, scaled by a power of ten. A string
in which a surrogate stands alone has no content, and a number that is too large is unreadable; both
are tokens all the same.
-/

set_option autoImplicit false
set_option relaxedAutoImplicit false

namespace Peephole.Json

open Text (isDigit digitValue hexValue?)

/-- A token of JSON text. -/
inductive Token where
  | leftBracket
  | rightBracket
  | leftBrace
  | rightBrace
  | colon
  | comma
  | string (content : Option String)
  /-- A number, a truth value or `null`. -/
  | plain (value : Json)

def isBlank (c : Char) : Bool :=
  c = ' ' || c = '\n' || c = '\t' || c = '\r'

/-- The value of four hexadecimal digits. -/
def hexValue4? (a b c d : Char) : Option Nat := do
  return (((← hexValue? a) * 16 + (← hexValue? b)) * 16 + (← hexValue? c)) * 16 + (← hexValue? d)

/-- The character that a letter after a backslash stands for. -/
def escaped? : Char → Option Char
  | '"' => some '"'
  | '\\' => some '\\'
  | '/' => some '/'
  | 'b' => some (Char.ofNat 0x8)
  | 'f' => some (Char.ofNat 0xC)
  | 'n' => some '\n'
  | 'r' => some '\r'
  | 't' => some '\t'
  | _ => none

def isHighSurrogate (n : Nat) : Bool :=
  0xD800 ≤ n && n < 0xDC00

def isLowSurrogate (n : Nat) : Bool :=
  0xDC00 ≤ n && n < 0xE000

/-- A part of a string: a character, or a 16-bit code given by its digits. -/
inductive Piece where
  | char (c : Char)
  | code (n : Nat)

/-- The parts of a string after its opening quote, with the number of characters read up to and
including the closing quote. -/
def pieces? : List Char → Option (List Piece × Nat)
  | [] => none
  | '"' :: _ => some ([], 1)
  | '\\' :: 'u' :: a :: b :: c :: d :: rest => do
    let n ← hexValue4? a b c d
    let (ps, k) ← pieces? rest
    return (.code n :: ps, k + 6)
  | '\\' :: e :: rest => do
    let c ← escaped? e
    let (ps, k) ← pieces? rest
    return (.char c :: ps, k + 2)
  | c :: rest =>
    if c.toNat < 0x20 || c = '\\' then none
    else do
      let (ps, k) ← pieces? rest
      return (.char c :: ps, k + 1)

/-- The characters of the parts of a string. A character beyond 16 bits is given by two codes, and
neither of them may stand alone. -/
def characters? : List Piece → Option (List Char)
  | [] => some []
  | .char c :: rest => (characters? rest).map (c :: ·)
  | .code n :: rest =>
    if isHighSurrogate n then
      match rest with
      | .code m :: rest =>
        if isLowSurrogate m then
          let c := Char.ofNat (0x10000 + (n - 0xD800) * 0x400 + (m - 0xDC00))
          (characters? rest).map (c :: ·)
        else none
      | _ => none
    else if isLowSurrogate n then none
    else (characters? rest).map (Char.ofNat n :: ·)

/-- The largest significand that is kept. -/
def maxSignificand : Nat :=
  UInt64.size - 1

/-- Appends digits to a significand as long as it stays within bounds, and gives it with the digits
that are left. -/
def absorb (significand : Nat) : List Char → Nat × List Char
  | [] => (significand, [])
  | d :: ds =>
    let next := 10 * significand + digitValue d
    if next ≤ maxSignificand then absorb next ds else (significand, d :: ds)

/-- A number with a sign, as a whole number if it fits 64 bits. -/
def wholeNumber (negative : Bool) (n : Nat) : Json :=
  if !negative then .whole n
  else if n = 0 || UInt64.size / 2 < n then .real (-(Float.ofNat n))
  else .whole (-(n : Int))

/-- A number from its digits before and after the point and its exponent. -/
def numberValue (negative : Bool) (whole fraction : List Char) (exponent : Option Int) : Json :=
  let (kept, dropped) := absorb 0 whole
  if dropped.isEmpty && fraction.isEmpty && exponent.isNone then wholeNumber negative kept
  else
    let (significand, rest) := absorb kept fraction
    let scale := (dropped.length : Int) - (fraction.length - rest.length : Nat) + exponent.getD 0
    match Decimal.scaled significand scale with
    | some x => .real (if negative then -x else x)
    | none => .unreadable

/-- The digits after the point of a number, with the characters used. There is at least one digit
after a point. -/
def fraction? : List Char → Option (List Char × Nat)
  | '.' :: rest =>
    let ds := rest.takeWhile isDigit
    if ds.isEmpty then none else some (ds, 1 + ds.length)
  | _ => some ([], 0)

/-- The exponent of a number, with the characters used. There is at least one digit in it. -/
def exponent? : List Char → Option (Option Int × Nat)
  | [] => some (none, 0)
  | e :: rest =>
    if e = 'e' || e = 'E' then
      let (negative, signLength) := match rest with
        | '-' :: _ => (true, 1)
        | '+' :: _ => (false, 1)
        | _ => (false, 0)
      let ds := (rest.drop signLength).takeWhile isDigit
      if ds.isEmpty then none
      else
        let n : Int := ds.foldl (fun n d ↦ 10 * n + digitValue d) 0
        some (some (if negative then -n else n), 1 + signLength + ds.length)
    else some (none, 0)

/-- The number at the start of a text without its sign, with the characters used. It has no zero in
front of other digits. -/
def number? (negative : Bool) (cs : List Char) : Option (Json × Nat) := do
  let whole := cs.takeWhile isDigit
  if whole.isEmpty || (whole.head? = some '0' && 1 < whole.length) then none
  else
    let rest := cs.drop whole.length
    let (fraction, fractionLength) ← fraction? rest
    let (exponent, exponentLength) ← exponent? (rest.drop fractionLength)
    return (numberValue negative whole fraction exponent,
      whole.length + fractionLength + exponentLength)

/-- The value that a word stands for, with the rest of its letters. -/
def word? (c : Char) (cs : List Char) : Option (Json × Nat) :=
  if c = 'n' && cs.take 3 = ['u', 'l', 'l'] then some (.null, 3)
  else if c = 't' && cs.take 3 = ['r', 'u', 'e'] then some (.bool true, 3)
  else if c = 'f' && cs.take 4 = ['a', 'l', 's', 'e'] then some (.bool false, 4)
  else none

/-- The brackets and separators. -/
def punctuation? : Char → Option Token
  | '[' => some .leftBracket
  | ']' => some .rightBracket
  | '\x7b' => some .leftBrace
  | '\x7d' => some .rightBrace
  | ':' => some .colon
  | ',' => some .comma
  | _ => none

/-- The token at the start of the text `c :: cs`, with the number of its characters after `c`. -/
def token? (c : Char) (cs : List Char) : Option (Token × Nat) :=
  match punctuation? c with
  | some t => some (t, 0)
  | none =>
    if c = '"' then
      (pieces? cs).map fun (ps, n) ↦ (.string ((characters? ps).map String.ofList), n)
    else if c = '-' then (number? true cs).map fun (j, n) ↦ (.plain j, n)
    else if isDigit c then (number? false (c :: cs)).map fun (j, n) ↦ (.plain j, n - 1)
    else (word? c cs).map fun (j, n) ↦ (.plain j, n)

/-- The tokens of a text. -/
def tokens? : List Char → Option (List Token)
  | [] => some []
  | c :: cs =>
    if isBlank c then tokens? cs
    else
      match token? c cs with
      | none => none
      | some (t, more) => (tokens? (cs.drop more)).map (t :: ·)
termination_by cs => cs.length
decreasing_by
  · simp
  · simp only [List.length_drop, List.length_cons]; omega

end Peephole.Json
