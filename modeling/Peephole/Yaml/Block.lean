import Peephole.Yaml.Cursor
import Peephole.Yaml.Scalar

/-!
# Scalars in blocks

A literal or folded scalar takes the lines below its header that are indented enough. The header can
give the indentation and say what becomes of the line breaks at the end.
-/

set_option autoImplicit false
set_option relaxedAutoImplicit false

namespace Peephole.Yaml

/-- What becomes of the line breaks at the end of a block. -/
inductive Chomping where
  | strip
  | clip
  | keep
deriving DecidableEq, Repr

/-- The header of a block. -/
structure BlockHeader where
  chomping : Chomping
  /-- By how much the block is indented; zero if that is not given. -/
  increment : Nat

def chomping? : Option Char → Option Chomping
  | some '+' => some .keep
  | some '-' => some .strip
  | _ => none

/-- Reads the indentation in a header, which is not zero. -/
def increment? (c : Cursor) : Option (Nat × Cursor) :=
  match c.rest with
  | [] => some (0, c)
  | ch :: _ =>
    if Text.isDigit ch then if ch = '0' then none else some (Text.digitValue ch, c.skip 1)
    else some (0, c)

/-- Reads the two parts of a header in either order. -/
def blockHeader? (c : Cursor) : Option (BlockHeader × Cursor) := do
  match chomping? (c.peek? 0) with
  | some chomping =>
    let (increment, c) ← increment? (c.skip 1)
    return (⟨chomping, increment⟩, c)
  | none =>
    let (increment, c) ← increment? c
    match chomping? (c.peek? 0) with
    | some chomping => return (⟨chomping, increment⟩, c.skip 1)
    | none => return (⟨.clip, increment⟩, c)

/-- Reads the rest of a line that may hold only a comment, and its end. -/
def restOfLine? (c : Cursor) : Option Cursor :=
  let c := c.skipWhile isBlank
  let c := if c.isAt '#' then c.skipWhile fun ch ↦ !isBreak ch else c
  if endsLine (c.peek? 0) then some c.skipBreak else none

/-- Empty lines, with the place after them. -/
structure EmptyLines where
  breaks : List Char
  /-- The largest column reached in the lines. -/
  widest : Nat
  cursor : Cursor

/-- Reads empty lines and the indentation of the line after them, up to the column `indent`, or to the
first other character if `indent` is zero. -/
def emptyLines? (indent : Nat) (breaks : List Char) (widest : Nat) (c : Cursor) : Option EmptyLines :=
  let spaces := (c.rest.takeWhile (· = ' ')).length
  let c₁ := c.skip (if indent = 0 then spaces else min spaces (indent - c.column))
  let widest := max widest c₁.column
  if (indent = 0 || c₁.column < indent) && c₁.isAt '\t' then none
  else
    match _h : c₁.rest with
    | [] => some ⟨breaks, widest, c₁⟩
    | ch :: _ =>
      if _hb : isBreak ch then emptyLines? indent (breaks ++ c₁.breakText) widest c₁.skipBreak
      else some ⟨breaks, widest, c₁⟩
termination_by c.rest.length
decreasing_by
  exact Nat.lt_of_lt_of_le (Cursor.length_skipBreak_lt _h _hb) (Cursor.length_skip_le _ _)

/-- The part of a block that has been read. -/
structure BlockPart where
  text : List Char
  /-- The break at the end of the last line. -/
  lineBreak : List Char
  /-- The breaks of the empty lines after it. -/
  breaks : List Char
  /-- Whether the last line begins with a blank. -/
  startsBlank : Bool

/-- The text of a part with what stands before the next line. In a folded block the break between two
lines that begin without a blank is folded. -/
def BlockPart.joined (part : BlockPart) (folds nextBlank : Bool) : List Char :=
  if folds && part.lineBreak = ['\n'] && !part.startsBlank && !nextBlank then
    part.text ++ (if part.breaks.isEmpty then [' '] else []) ++ part.breaks
  else part.text ++ part.lineBreak ++ part.breaks

/-- Reads the lines of a block that is indented to the column `indent`. -/
def blockLines? (folds : Bool) (indent : Nat) (part : BlockPart) (c : Cursor) :
    Option (BlockPart × Cursor) :=
  if c.column = indent && !c.rest.isEmpty then
    let startsBlank := (c.peek? 0).any isBlank
    let line := c.rest.takeWhile fun ch ↦ !isBreak ch
    let c₁ := c.skip line.length
    match emptyLines? indent [] 0 c₁.skipBreak with
    | none => none
    | some lines =>
      let part := ⟨part.joined folds startsBlank ++ line, c₁.breakText, lines.breaks, startsBlank⟩
      if lines.cursor.rest.length < c.rest.length then blockLines? folds indent part lines.cursor
      else none
  else some (part, c)
termination_by c.rest.length

/-- The text of a block with the breaks at its end that the header asks for. -/
def BlockPart.chomped (part : BlockPart) : Chomping → List Char
  | .strip => part.text
  | .clip => part.text ++ part.lineBreak
  | .keep => part.text ++ part.lineBreak ++ part.breaks

/-- Reads a block after its indicator, below a collection that is indented to the column `outer`, or
to none. -/
def block? (folds : Bool) (outer : Option Nat) (c : Cursor) : Option (List Char × Cursor) := do
  let (header, c) ← blockHeader? c
  let c ← restOfLine? c
  let given := if header.increment = 0 then 0 else outer.getD 0 + header.increment
  let lines ← emptyLines? given [] 0 c
  let least := match outer with
    | some column => column + 1
    | none => 0
  let indent := if given = 0 then max 1 (max least lines.widest) else given
  let (part, c) ← blockLines? folds indent ⟨[], [], lines.breaks, false⟩ lines.cursor
  return (part.chomped header.chomping, c)

end Peephole.Yaml
