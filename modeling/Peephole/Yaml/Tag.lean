import Peephole.Yaml.Block
import Peephole.Yaml.Token

/-!
# Tags, anchors and directives

A tag is written in full between angle brackets, or with a handle in front. A directive gives the
version of the format or says what a handle stands for. Anchors and aliases are words.
-/

set_option autoImplicit false
set_option relaxedAutoImplicit false

namespace Peephole.Yaml

/-- Reads the letters of a word. -/
def word (c : Cursor) : List Char × Cursor :=
  let cs := c.rest.takeWhile isWordChar
  (cs, c.skip cs.length)

/-- Reads the name of an anchor or alias after its indicator. -/
def anchorName? (c : Cursor) : Option (List Char × Cursor) :=
  let (name, c) := word c
  let follows := endsWord (c.peek? 0) ||
    (c.peek? 0).any fun ch ↦ ['?', ':', ',', ']', '\x7d', '%', '@', '\x60'].contains ch
  if !name.isEmpty && follows then some (name, c) else none

/-- Reads the handle of a tag: an exclamation mark, or a word between two of them. A single mark with
a word after it is the start of a tag without a handle, which no directive can name. -/
def handle? (inDirective : Bool) (c : Cursor) : Option (List Char × Cursor) :=
  if c.isAt '!' then
    let (name, c) := word (c.skip 1)
    if c.isAt '!' then some ('!' :: name ++ ['!'], c.skip 1)
    else if inDirective && !name.isEmpty then none
    else some ('!' :: name, c)
  else none

/-- The characters of a tag. Commas and brackets belong to it only where it has an end of its own. -/
def isTagChar (enclosed : Bool) (ch : Char) : Bool :=
  isWordChar ch ||
    [';', '/', '?', ':', '@', '&', '=', '+', '$', '.', '%', '!', '~', '*', '\x27', '(', ')'].contains ch ||
    (enclosed && [',', '[', ']'].contains ch)

/-- The byte that two digits after a percent sign give. -/
def byte? : List Char → Option UInt8
  | '%' :: a :: b :: _ => (Text.number? 16 [a, b]).map UInt8.ofNat
  | _ => none

/-- The number of bytes of a character by the first of them. -/
def byteCount? (first : UInt8) : Option Nat :=
  if first < 0x80 then some 1
  else if first < 0xC0 then none
  else if first < 0xE0 then some 2
  else if first < 0xF0 then some 3
  else if first < 0xF8 then some 4
  else none

/-- The further bytes of a character in digits. -/
def trailingBytes? : (count : Nat) → List Char → Option (List UInt8)
  | 0, _ => some []
  | count + 1, cs => do
    let byte ← byte? cs
    if 0x80 ≤ byte ∧ byte < 0xC0 then return byte :: (← trailingBytes? count (cs.drop 3))
    else none

/-- The bytes of a character in digits. It is not asked whether there is such a character. -/
def encoded? (cs : List Char) : Option (List UInt8) := do
  let first ← byte? cs
  let count ← byteCount? first
  return first :: (← trailingBytes? (count - 1) (cs.drop 3))

/-- Reads the bytes of a tag; `none` if a percent sign gives none. -/
def tagBytes? (enclosed : Bool) (c : Cursor) : Option (List UInt8 × Cursor) :=
  match _h : c.rest with
  | [] => some ([], c)
  | ch :: _ =>
    if isTagChar enclosed ch then
      if ch = '%' then
        match encoded? c.rest with
        | none => none
        | some [] => none
        | some (byte :: bytes) =>
          (tagBytes? enclosed (c.skip (3 * (bytes.length + 1)))).map fun (more, c) ↦
            (byte :: bytes ++ more, c)
      else
        (tagBytes? enclosed (c.skip 1)).map fun (more, c) ↦ (ch.toUInt8 :: more, c)
    else some ([], c)
termination_by c.rest.length
decreasing_by
  · exact Cursor.length_skip_lt _h (by omega)
  · exact Cursor.length_skip_lt _h Nat.zero_lt_one

/-- The tag that bytes give. A zero ends it. -/
def Tag.ofBytes (bytes : List UInt8) : Tag :=
  bytes.takeWhile (· ≠ 0)

/-- Reads a tag. An exclamation mark alone is a tag of its own. -/
def tag? (inFlow : Bool) (c : Cursor) : Option (ShortTag × Cursor) := do
  let (tag, c) ←
    if c.peek? 1 = some '<' then do
      let (bytes, c) ← tagBytes? true (c.skip 2)
      if bytes.isEmpty || !c.isAt '>' then none
      else some (ShortTag.mk [] (.ofBytes bytes), c.skip 1)
    else do
      let (handle, c) ← handle? false c
      let (bytes, c) ← tagBytes? false c
      let suffix := Tag.ofBytes bytes
      if 1 < handle.length && handle.getLast? = some '!' then
        if bytes.isEmpty then none else some (⟨handle, suffix⟩, c)
      else
        let suffix := (handle.drop 1).map Char.toUInt8 ++ suffix
        some (if suffix.isEmpty then ⟨[], .ofString "!"⟩ else ⟨['!'], suffix⟩, c)
  if endsWord (c.peek? 0) || (inFlow && c.isAt ',') then some (tag, c) else none

/-- The most digits of a number in a version. -/
def maxVersionDigits : Nat :=
  9

/-- Reads a number of a version. -/
def versionNumber? (c : Cursor) : Option (Nat × Cursor) := do
  let digits := c.rest.takeWhile Text.isDigit
  if maxVersionDigits < digits.length then none
  let n ← Text.number? 10 digits
  return (n, c.skip digits.length)

/-- Reads a version after its directive's name. -/
def version? (c : Cursor) : Option (Token × Cursor) := do
  let (major, c) ← versionNumber? (c.skipWhile isBlank)
  if !c.isAt '.' then none
  let (minor, c) ← versionNumber? (c.skip 1)
  return (.version major minor, c)

/-- Reads a handle and what it stands for after the directive's name. -/
def tagHandle? (c : Cursor) : Option (Token × Cursor) := do
  let (handle, c) ← handle? true (c.skipWhile isBlank)
  if !(c.peek? 0).any isBlank then none
  let (bytes, c) ← tagBytes? true (c.skipWhile isBlank)
  if bytes.isEmpty || !endsWord (c.peek? 0) then none
  return (.tagHandle handle (.ofBytes bytes), c)

/-- Reads a directive after its indicator, to the end of its line. -/
def directive? (c : Cursor) : Option (Token × Cursor) := do
  let (name, c) := word c
  if name.isEmpty || !endsWord (c.peek? 0) then none
  let (token, c) ←
    if name = "YAML".toList then version? c
    else if name = "TAG".toList then tagHandle? c
    else none
  return (token, ← restOfLine? c)

end Peephole.Yaml
