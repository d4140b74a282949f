import Peephole.Yaml.Flowing
import Peephole.Yaml.Tag

/-!
# From YAML text to tokens

The layout of a text decides where collections in block style begin and end. The lexer keeps the
columns of the collections that are open (`indents`) and, for each level of brackets, the place where a
key may have begun (`key` and `outerKeys`). When a colon shows that there was a key, the tokens for it
are inserted where it began.

A key begins and ends on one line and has at most 1024 characters. In block style a scalar in the
column of a mapping must be a key.
-/

set_option autoImplicit false
set_option relaxedAutoImplicit false

namespace Peephole.Yaml

/-- A place where a key may have begun. -/
structure KeyStart where
  /-- Whether there must be a key. -/
  required : Bool
  /-- The number of tokens before the key. -/
  tokens : Nat
  index : Nat
  line : Nat
  column : Nat

/-- How many characters the colon may be away from the start of its key. -/
def maxKeyLength : Nat :=
  1024

/-- Whether a colon at a place comes too late for a key. -/
def KeyStart.isStale (k : KeyStart) (c : Cursor) : Bool :=
  k.line < c.line || k.index + maxKeyLength < c.index

/-- The names of anchors with their numbers. -/
abbrev Anchors := List (List Char × Nat)

namespace Anchors

/-- The number of a new anchor is the count of the names so far. -/
def number (anchors : Anchors) : Nat :=
  anchors.length

/-- Gives the name to a new anchor. An older anchor of that name loses it. -/
def add (anchors : Anchors) (name : List Char) : Anchors :=
  (name, anchors.number) :: anchors.filter (·.1 ≠ name)

end Anchors

structure Lexer where
  cursor : Cursor
  /-- The columns of the collections in block style, the innermost one first. -/
  indents : List Nat
  /-- Where a key may have begun, on the innermost level of brackets. -/
  key : Option KeyStart
  /-- The same on the levels around it, the innermost one first. -/
  outerKeys : List (Option KeyStart)
  /-- Whether a key may begin here. -/
  keyAllowed : Bool
  anchors : Anchors
  tokens : List Token

namespace Lexer

variable (s : Lexer)

def start (c : Cursor) : Lexer :=
  ⟨c, [], none, [], true, [], []⟩

/-- Whether the place is within brackets. -/
def inFlow : Bool :=
  !s.outerKeys.isEmpty

/-- The column of the innermost collection in block style. -/
def indent : Option Nat :=
  s.indents.head?

/-- The first column in which the text of a plain scalar may go on. -/
def textColumn : Nat :=
  match s.indent with
  | some column => column + 1
  | none => 0

def emit (t : Token) : Lexer :=
  { s with tokens := s.tokens ++ [t] }

def moveTo (c : Cursor) : Lexer :=
  { s with cursor := c }

/-- Whether a key can be given up. -/
def mayDrop (key : Option KeyStart) : Bool :=
  key.all fun k ↦ !k.required

/-- Gives up the key that may have begun on this level. -/
def dropKey? : Option Lexer :=
  if mayDrop s.key then some { s with key := none } else none

/-- Gives up the keys for which a colon comes too late. -/
def dropStaleKeys? : Option Lexer :=
  let isStale (key : Option KeyStart) : Bool := key.any fun k ↦ k.isStale s.cursor
  let keep (key : Option KeyStart) : Option KeyStart := if isStale key then none else key
  if (s.key :: s.outerKeys).all fun key ↦ mayDrop key || !isStale key then
    some { s with key := keep s.key, outerKeys := s.outerKeys.map keep }
  else none

/-- Notes that a key may begin here, if it may. -/
def saveKey? : Option Lexer :=
  if s.keyAllowed then do
    let c := s.cursor
    let required := !s.inFlow && s.indent = some c.column
    let s ← s.dropKey?
    return { s with key := some ⟨required, s.tokens.length, c.index, c.line, c.column⟩ }
  else some s

/-- Closes the collections in block style that are indented more than to `column`; all of them, if it
is `none`. Brackets keep them open. -/
def unroll (column : Option Nat) : Lexer :=
  if s.inFlow then s
  else
    let indents := s.indents.dropWhile fun n ↦ !column.any (n ≤ ·)
    let ends := List.replicate (s.indents.length - indents.length) Token.blockEnd
    { s with indents, tokens := s.tokens ++ ends }

/-- Opens a collection in block style in a column that is indented more than the one around it. Its
token is put at a given position. -/
def roll (column position : Nat) (t : Token) : Lexer :=
  if !s.inFlow && s.indent.all (· < column) then
    { s with
      indents := column :: s.indents
      tokens := s.tokens.insertIdx position t }
  else s

/-- The place after blanks and a comment. A tab may not stand where a key may begin; a byte order mark
may stand at the start of a line. -/
def lineSpace (inFlow keyAllowed : Bool) (c : Cursor) : Cursor :=
  let c := if c.column = 0 && c.isAt byteOrderMark then c.skip 1 else c
  let c := c.skipWhile fun ch ↦ ch = ' ' || (ch = '\t' && (inFlow || !keyAllowed))
  if c.isAt '#' then c.skipWhile fun ch ↦ !isBreak ch else c

theorem length_lineSpace_le (inFlow keyAllowed : Bool) (c : Cursor) :
    (lineSpace inFlow keyAllowed c).rest.length ≤ c.rest.length := by
  unfold lineSpace
  grind [Cursor.length_skip_le, Cursor.length_skipWhile_le]

/-- Skips blanks, comments and line breaks. -/
def skipSpace (inFlow keyAllowed : Bool) (c : Cursor) : Cursor × Bool :=
  let c' := lineSpace inFlow keyAllowed c
  match _h : c'.rest with
  | [] => (c', keyAllowed)
  | ch :: _ =>
    if _hb : isBreak ch then skipSpace inFlow (keyAllowed || !inFlow) c'.skipBreak
    else (c', keyAllowed)
termination_by c.rest.length
decreasing_by
  exact Nat.lt_of_lt_of_le (Cursor.length_skipBreak_lt _h _hb) (length_lineSpace_le ..)

/-- Skips what stands before the next token. -/
def toToken : Lexer :=
  let (c, keyAllowed) := skipSpace s.inFlow s.keyAllowed s.cursor
  { s with cursor := c, keyAllowed }

/-- The end of all collections, before a directive, a mark of a document or the end of the text. -/
def endBlocks? : Option Lexer := do
  let s ← (s.unroll none).dropKey?
  return { s with keyAllowed := false }

def directive? : Option Lexer := do
  let s ← s.endBlocks?
  let (t, c) ← Yaml.directive? (s.cursor.skip 1)
  return (s.emit t).moveTo c

def documentMark? (t : Token) : Option Lexer := do
  let s ← s.endBlocks?
  return (s.emit t).moveTo (s.cursor.skip 3)

def openFlow? (t : Token) : Option Lexer := do
  let s ← s.saveKey?
  return { s.emit t with
    cursor := s.cursor.skip 1
    key := none
    outerKeys := s.key :: s.outerKeys
    keyAllowed := true }

def closeFlow? (t : Token) : Option Lexer := do
  let s ← s.dropKey?
  let (key, outerKeys) := match s.outerKeys with
    | key :: outerKeys => (key, outerKeys)
    | [] => (none, [])
  return { s.emit t with cursor := s.cursor.skip 1, key, outerKeys, keyAllowed := false }

def flowItem? : Option Lexer := do
  let s ← s.dropKey?
  return { s.emit .flowEntry with cursor := s.cursor.skip 1, keyAllowed := true }

/-- An entry of a sequence in block style, which may begin where a key may. -/
def blockItem? : Option Lexer := do
  if !s.inFlow && !s.keyAllowed then none
  let s ← (s.roll s.cursor.column s.tokens.length .blockSequenceStart).dropKey?
  return { s.emit .blockEntry with cursor := s.cursor.skip 1, keyAllowed := true }

/-- A key with an indicator. -/
def key? : Option Lexer := do
  if !s.inFlow && !s.keyAllowed then none
  let s ← (s.roll s.cursor.column s.tokens.length .blockMappingStart).dropKey?
  return { s.emit .key with cursor := s.cursor.skip 1, keyAllowed := !s.inFlow }

/-- A value: if a key may have begun on this level, it did. -/
def value? : Option Lexer :=
  match s.key with
  | some k =>
    let s := { s with tokens := s.tokens.insertIdx k.tokens .key }
    let s := s.roll k.column k.tokens .blockMappingStart
    some { s.emit .value with cursor := s.cursor.skip 1, key := none, keyAllowed := false }
  | none =>
    if !s.inFlow && !s.keyAllowed then none
    else
      let s := s.roll s.cursor.column s.tokens.length .blockMappingStart
      some { s.emit .value with cursor := s.cursor.skip 1, keyAllowed := !s.inFlow }

/-- A token that may be the start of a key, or stand before it. -/
def keyLike? (read : Cursor → Option (Token × Cursor)) : Option Lexer := do
  let s ← s.saveKey?
  let (t, c) ← read s.cursor
  return { s.emit t with cursor := c, keyAllowed := false }

/-- An anchor. -/
def anchor? : Option Lexer := do
  let (name, c) ← anchorName? (s.cursor.skip 1)
  let s ← s.keyLike? fun _ ↦ some (.anchor s.anchors.number, c)
  return { s with anchors := s.anchors.add name }

/-- An alias. Its anchor stands before it. -/
def reference? : Option Lexer := do
  let (name, c) ← anchorName? (s.cursor.skip 1)
  let anchor ← s.anchors.lookup name
  s.keyLike? fun _ ↦ some (.reference anchor, c)

def blockScalar? (style : ScalarStyle) : Option Lexer := do
  let s ← s.dropKey?
  let (text, c) ← Yaml.block? (style = .folded) s.indent (s.cursor.skip 1)
  return { s.emit (.scalar ⟨text, style⟩) with cursor := c, keyAllowed := true }

def quotedScalar? (q : Char) (style : ScalarStyle) : Option Lexer :=
  s.keyLike? fun c ↦ (Yaml.quoted? q [] .none (c.skip 1)).map fun (text, c) ↦
    (.scalar ⟨text, style⟩, c)

/-- A plain scalar. A key may begin on the line after it. -/
def plainScalar? : Option Lexer := do
  let s ← s.saveKey?
  let done ← Yaml.plain? s.inFlow s.textColumn [] .none s.cursor
  return { s.emit (.scalar ⟨done.text, .plain⟩) with
    cursor := done.cursor
    keyAllowed := done.broken }

/-- The characters with which no plain scalar begins. -/
def isIndicator (ch : Char) : Bool :=
  ['-', '?', ':', ',', '[', ']', '\x7b', '\x7d', '#', '&', '*', '!', '|', '>', '\x27', '"', '%', '@',
    '\x60'].contains ch

/-- Whether a plain scalar begins with a character before another one. A dash, and outside of
brackets a question mark or a colon, may begin one if no blank follows. -/
def beginsPlain (ch : Char) (next : Option Char) : Bool :=
  !(isBlank ch || isBreak ch || isIndicator ch) ||
    (ch = '-' && !next.any isBlank) ||
    (!s.inFlow && (ch = '?' || ch = ':') && !endsWord next)

/-- Reads the token that begins with the character `ch`, which is the next one. -/
def token? (ch : Char) : Option Lexer :=
  let next := s.cursor.peek? 1
  if s.cursor.column = 0 && ch = '%' then s.directive?
  else if s.cursor.mark? = some '-' then s.documentMark? .documentStart
  else if s.cursor.mark? = some '.' then s.documentMark? .documentEnd
  else if ch = '[' then s.openFlow? .flowSequenceStart
  else if ch = '\x7b' then s.openFlow? .flowMappingStart
  else if ch = ']' then s.closeFlow? .flowSequenceEnd
  else if ch = '\x7d' then s.closeFlow? .flowMappingEnd
  else if ch = ',' then s.flowItem?
  else if ch = '-' && endsWord next then s.blockItem?
  else if ch = '?' && (s.inFlow || endsWord next) then s.key?
  else if ch = ':' && (s.inFlow || endsWord next) then s.value?
  else if ch = '*' then s.reference?
  else if ch = '&' then s.anchor?
  else if ch = '!' then
    s.keyLike? fun c ↦ (tag? s.inFlow c).map fun (tag, c) ↦ (.tag tag, c)
  else if ch = '|' && !s.inFlow then s.blockScalar? .literal
  else if ch = '>' && !s.inFlow then s.blockScalar? .folded
  else if ch = '\x27' then s.quotedScalar? ch .singleQuoted
  else if ch = '"' then s.quotedScalar? ch .doubleQuoted
  else if s.beginsPlain ch next then s.plainScalar?
  else none

/-- Reads tokens to the end of the text. -/
def tokens? (s : Lexer) : Option (List Token) :=
  match s.toToken.dropStaleKeys? with
  | none => none
  | some s₁ =>
    let s₂ := s₁.unroll (some s₁.cursor.column)
    match s₂.cursor.rest with
    | [] => s₂.endBlocks?.map fun s ↦ s.tokens ++ [.streamEnd]
    | ch :: _ =>
      match s₂.token? ch with
      | none => none
      | some s₃ => if s₃.cursor.rest.length < s.cursor.rest.length then s₃.tokens? else none
termination_by s.cursor.rest.length

end Lexer

/-- The tokens of a text. -/
def tokens? (text : String) : Option (List Token) := do
  (Lexer.start (← Cursor.start? text)).tokens?

end Peephole.Yaml
