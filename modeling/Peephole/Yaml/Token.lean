import Peephole.Yaml.Scalar

/-!
# YAML tokens

Besides what is written in a text there are tokens for what its layout says: where a collection in
block style starts and ends, and that a scalar is the key of a mapping. Anchors are numbers.
-/

set_option autoImplicit false
set_option relaxedAutoImplicit false

namespace Peephole.Yaml

/-- A tag in full: its bytes, none of which is zero. They need not be those of a text. -/
abbrev Tag := List UInt8

/-- The bytes of a text. -/
def Tag.ofString (text : String) : Tag :=
  text.toUTF8.toList

/-- A tag as it is written: a handle, which stands for the start of the tag, and the rest of it. -/
structure ShortTag where
  handle : List Char
  suffix : Tag
deriving DecidableEq, Repr

inductive Token where
  | streamEnd
  | version (major minor : Nat)
  /-- What a handle stands for. -/
  | tagHandle (handle : List Char) (expansion : Tag)
  | documentStart
  | documentEnd
  | blockSequenceStart
  | blockMappingStart
  | blockEnd
  | flowSequenceStart
  | flowSequenceEnd
  | flowMappingStart
  | flowMappingEnd
  | blockEntry
  | flowEntry
  | key
  | value
  /-- An alias of the node with an anchor. -/
  | reference (anchor : Nat)
  | anchor (anchor : Nat)
  | tag (tag : ShortTag)
  | scalar (scalar : Scalar)
deriving DecidableEq, Repr

end Peephole.Yaml
