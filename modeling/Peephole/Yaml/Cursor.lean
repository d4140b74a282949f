/-!
# Places in a YAML text

A `Cursor` is what is left of a text together with where that is: the number of characters before it,
the line and the column. Besides the usual line breaks there are three more that count as such, the
next line character and the two separators of lines and paragraphs.
-/

set_option autoImplicit false
set_option relaxedAutoImplicit false

namespace Peephole.Yaml

def isBlank (c : Char) : Bool :=
  c = ' ' || c = '\t'

def isBreak (c : Char) : Bool :=
  c = '\n' || c = '\r' || c.toNat = 0x85 || c.toNat = 0x2028 || c.toNat = 0x2029

def byteOrderMark : Char :=
  Char.ofNat 0xFEFF

/-- The characters that may occur in a text. -/
def isAllowed (c : Char) : Bool :=
  let n := c.toNat
  c = '\t' || c = '\n' || c = '\r' || (0x20 ≤ n && n ≤ 0x7E) || n = 0x85 ||
    (0xA0 ≤ n && n ≤ 0xFFFD) || 0x10000 ≤ n

/-- Letters, digits, the dash and the underscore. -/
def isWordChar (c : Char) : Bool :=
  c.isAlphanum || c = '-' || c = '_'

/-- Whether a character, or the end of the text, is blank or ends a line. -/
def endsWord (c : Option Char) : Bool :=
  c.all fun c ↦ isBlank c || isBreak c

/-- Whether a character, or the end of the text, ends a line. -/
def endsLine (c : Option Char) : Bool :=
  c.all isBreak

/-- A place in a text. -/
structure Cursor where
  rest : List Char
  index : Nat
  line : Nat
  column : Nat

namespace Cursor

/-- The start of a text; `none` if the text holds a character that may not occur. -/
def start? (text : String) : Option Cursor :=
  let cs := text.toList
  if cs.all isAllowed then some ⟨cs, 0, 0, 0⟩ else none

variable (c : Cursor)

/-- The character `n` places ahead. -/
def peek? (n : Nat) : Option Char :=
  c.rest[n]?

/-- Whether the next character is the given one. -/
def isAt (ch : Char) : Bool :=
  c.peek? 0 = some ch

/-- The place `n` characters on, within the line. -/
def skip (n : Nat) : Cursor :=
  let taken := (c.rest.take n).length
  ⟨c.rest.drop n, c.index + taken, c.line, c.column + taken⟩

/-- The place after the characters that pass a test, which no line break does. -/
def skipWhile (p : Char → Bool) : Cursor :=
  c.skip (c.rest.takeWhile p).length

/-- The place after a line break, if there is one. A carriage return and a line feed are one. -/
def skipBreak : Cursor :=
  match c.rest with
  | '\r' :: '\n' :: rest => ⟨rest, c.index + 2, c.line + 1, 0⟩
  | ch :: rest => if isBreak ch then ⟨rest, c.index + 1, c.line + 1, 0⟩ else c
  | [] => c

/-- How a line break counts in a scalar: the separators stay, the others are line feeds. -/
def breakText : List Char :=
  match c.rest with
  | ch :: _ =>
    if ch.toNat = 0x2028 || ch.toNat = 0x2029 then [ch]
    else if isBreak ch then ['\n']
    else []
  | [] => []

/-- The mark of a document at the start of a line: three dashes, or three dots. -/
def mark? : Option Char :=
  match c.rest with
  | a :: b :: d :: rest =>
    if c.column = 0 && a = b && b = d && (a = '-' || a = '.') && endsWord rest.head? then some a
    else none
  | _ => none

theorem length_skip_le (c : Cursor) (n : Nat) : (c.skip n).rest.length ≤ c.rest.length := by
  simp only [skip, List.length_drop]
  omega

theorem length_skipWhile_le (c : Cursor) (p : Char → Bool) :
    (c.skipWhile p).rest.length ≤ c.rest.length :=
  c.length_skip_le _

theorem length_skip_lt {c : Cursor} {ch : Char} {rest : List Char} (h : c.rest = ch :: rest)
    {n : Nat} (hn : 0 < n) : (c.skip n).rest.length < c.rest.length := by
  simp only [skip, h, List.length_drop, List.length_cons]
  omega

theorem length_skipBreak_le (c : Cursor) : c.skipBreak.rest.length ≤ c.rest.length := by
  unfold skipBreak
  grind

theorem length_skipBreak_lt {c : Cursor} {ch : Char} {rest : List Char} (h : c.rest = ch :: rest)
    (hb : isBreak ch) : c.skipBreak.rest.length < c.rest.length := by
  unfold skipBreak
  split
  · rename_i h'
    simp only [h', List.length_cons]
    omega
  · rename_i h'
    rw [h] at h'
    obtain ⟨rfl, rfl⟩ := List.cons.inj h'
    simp [h, hb]
  · rename_i h'
    rw [h] at h'
    cases h'

end Cursor

end Peephole.Yaml
