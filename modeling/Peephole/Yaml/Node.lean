import Peephole.Yaml.Token

/-!
# YAML nodes

A node is a scalar, a sequence, a mapping or an alias of a node with an anchor. `Node.ofTokens?` reads
the node at the start of some tokens. A value that is left out is the empty plain scalar.
-/

set_option autoImplicit false
set_option relaxedAutoImplicit false

namespace Peephole.Yaml

/-- What is said about a node in front of it. -/
structure Properties where
  anchor : Option Nat
  tag : Option Tag
deriving DecidableEq, Repr

inductive Node where
  | reference (anchor : Nat)
  | scalar (properties : Properties) (scalar : Scalar)
  | sequence (properties : Properties) (items : List Node)
  | mapping (properties : Properties) (members : List (Node × Node))

namespace Node

/-- The node that is left out. -/
def absent : Node :=
  .scalar ⟨none, none⟩ Scalar.empty

/-- What the handles of tags stand for. -/
abbrev Handles := List (List Char × Tag)

/-- The start of the tags of the format itself. -/
def coreTag : Tag :=
  .ofString "tag:yaml.org,2002:"

/-- The handles that stand for something unless a directive says otherwise. -/
def standardHandles : Handles :=
  [(['!'], .ofString "!"), (['!', '!'], coreTag)]

/-- A tag in full. -/
def fullTag? (handles : Handles) (tag : ShortTag) : Option Tag :=
  if tag.handle.isEmpty then some tag.suffix
  else (handles.lookup tag.handle).map (· ++ tag.suffix)

/-- Reads an anchor and a tag, in either order. -/
def properties? (handles : Handles) : List Token → Option (Properties × List Token)
  | .anchor anchor :: .tag tag :: rest => do return (⟨some anchor, ← fullTag? handles tag⟩, rest)
  | .tag tag :: .anchor anchor :: rest => do return (⟨some anchor, ← fullTag? handles tag⟩, rest)
  | .anchor anchor :: rest => some (⟨some anchor, none⟩, rest)
  | .tag tag :: rest => do return (⟨none, ← fullTag? handles tag⟩, rest)
  | rest => some (⟨none, none⟩, rest)

/-- Whether an item of a sequence in block style is left out before a token. -/
def endsItem : Option Token → Bool
  | some .blockEntry => true
  | some .blockEnd => true
  | _ => false

/-- Whether a key or value in block style is left out before a token. -/
def endsMember : Option Token → Bool
  | some .key => true
  | some .value => true
  | some .blockEnd => true
  | _ => false

/-- Whether a value in brackets is left out before a token. -/
def endsFlowValue (close : Token) (t : Option Token) : Bool :=
  t = some .flowEntry || t = some close

/-- Whether a key in brackets is left out before a token. -/
def endsFlowKey (close : Token) (t : Option Token) : Bool :=
  t = some .value || endsFlowValue close t

mutual

/-- Reads a node. In block style there may be a collection in block style, and where a mapping is
around it also a sequence that is not indented more than the mapping. -/
def read? (handles : Handles) :
    (steps : Nat) → (inBlock indentless : Bool) → List Token → Option (Node × List Token)
  | 0, _, _, _ => none
  | _ + 1, _, _, .reference anchor :: rest => some (.reference anchor, rest)
  | steps + 1, inBlock, indentless, ts => do
    let (p, ts) ← properties? handles ts
    content? handles steps inBlock indentless p ts

/-- Reads a node after its properties. -/
def content? (handles : Handles) :
    (steps : Nat) → (inBlock indentless : Bool) → Properties → List Token →
      Option (Node × List Token)
  | 0, _, _, _, _ => none
  | steps + 1, inBlock, indentless, p, ts =>
    match ts, inBlock, indentless with
    | .blockEntry :: rest, _, true => do
      let (items, ts) ← plainItems? handles steps (.blockEntry :: rest)
      return (.sequence p items, ts)
    | .scalar s :: rest, _, _ => some (.scalar p s, rest)
    | .flowSequenceStart :: rest, _, _ => do
      let (items, ts) ← flowItems? handles steps true rest
      return (.sequence p items, ts)
    | .flowMappingStart :: rest, _, _ => do
      let (members, ts) ← flowMembers? handles steps true rest
      return (.mapping p members, ts)
    | .blockSequenceStart :: rest, true, _ => do
      let (items, ts) ← blockItems? handles steps rest
      return (.sequence p items, ts)
    | .blockMappingStart :: rest, true, _ => do
      let (members, ts) ← blockMembers? handles steps rest
      return (.mapping p members, ts)
    | ts, _, _ =>
      if p.anchor.isSome || p.tag.isSome then some (.scalar p Scalar.empty, ts) else none

/-- Reads the items of an indented sequence in block style and its end. -/
def blockItems? (handles : Handles) : (steps : Nat) → List Token → Option (List Node × List Token)
  | 0, _ => none
  | steps + 1, .blockEntry :: ts => do
    let (item, ts) ←
      if endsItem ts.head? then some (absent, ts) else read? handles steps true false ts
    let (items, ts) ← blockItems? handles steps ts
    return (item :: items, ts)
  | _ + 1, .blockEnd :: ts => some ([], ts)
  | _ + 1, _ => none

/-- Reads the items of a sequence in block style that is not indented. -/
def plainItems? (handles : Handles) : (steps : Nat) → List Token → Option (List Node × List Token)
  | 0, _ => none
  | steps + 1, .blockEntry :: ts => do
    let (item, ts) ←
      if endsItem ts.head? || endsMember ts.head? then some (absent, ts)
      else read? handles steps true false ts
    let (items, ts) ← plainItems? handles steps ts
    return (item :: items, ts)
  | _ + 1, ts => some ([], ts)

/-- Reads the members of a mapping in block style and its end. -/
def blockMembers? (handles : Handles) :
    (steps : Nat) → List Token → Option (List (Node × Node) × List Token)
  | 0, _ => none
  | steps + 1, .key :: ts => do
    let (key, ts) ←
      if endsMember ts.head? then some (absent, ts) else read? handles steps true true ts
    let (value, ts) ← match ts with
      | .value :: ts =>
        if endsMember ts.head? then some (absent, ts) else read? handles steps true true ts
      | ts => some (absent, ts)
    let (members, ts) ← blockMembers? handles steps ts
    return ((key, value) :: members, ts)
  | _ + 1, .blockEnd :: ts => some ([], ts)
  | _ + 1, _ => none

/-- Reads the items of a sequence in brackets and its end. An item can be a mapping with a single
member and no braces. -/
def flowItems? (handles : Handles) :
    (steps : Nat) → (first : Bool) → List Token → Option (List Node × List Token)
  | 0, _, _ => none
  | _ + 1, _, .flowSequenceEnd :: ts => some ([], ts)
  | steps + 1, first, ts => do
    let ts ← match first, ts with
      | true, ts => some ts
      | false, .flowEntry :: ts => some ts
      | false, _ => none
    match ts with
    | .flowSequenceEnd :: ts => return ([], ts)
    | .key :: ts =>
      let (key, ts) ←
        if endsFlowKey .flowSequenceEnd ts.head? then some (absent, ts.tail)
        else read? handles steps false false ts
      let (value, ts) ← flowValue? handles steps .flowSequenceEnd ts
      let (items, ts) ← flowItems? handles steps false ts
      return (.mapping ⟨none, none⟩ [(key, value)] :: items, ts)
    | ts =>
      let (item, ts) ← read? handles steps false false ts
      let (items, ts) ← flowItems? handles steps false ts
      return (item :: items, ts)

/-- Reads the value of a key in brackets. -/
def flowValue? (handles : Handles) :
    (steps : Nat) → (close : Token) → List Token → Option (Node × List Token)
  | 0, _, _ => none
  | steps + 1, close, .value :: ts =>
    if endsFlowValue close ts.head? then some (absent, ts) else read? handles steps false false ts
  | _ + 1, _, ts => some (absent, ts)

/-- Reads the members of a mapping in braces and its end. A key without an indicator has no value
here, since the token of a key stands before every other one. -/
def flowMembers? (handles : Handles) :
    (steps : Nat) → (first : Bool) → List Token → Option (List (Node × Node) × List Token)
  | 0, _, _ => none
  | _ + 1, _, .flowMappingEnd :: ts => some ([], ts)
  | steps + 1, first, ts => do
    let ts ← match first, ts with
      | true, ts => some ts
      | false, .flowEntry :: ts => some ts
      | false, _ => none
    match ts with
    | .flowMappingEnd :: ts => return ([], ts)
    | .key :: ts =>
      let (key, ts) ←
        if endsFlowKey .flowMappingEnd ts.head? then some (absent, ts)
        else read? handles steps false false ts
      let (value, ts) ← flowValue? handles steps .flowMappingEnd ts
      let (members, ts) ← flowMembers? handles steps false ts
      return ((key, value) :: members, ts)
    | ts =>
      let (key, ts) ← read? handles steps false false ts
      let (members, ts) ← flowMembers? handles steps false ts
      return ((key, absent) :: members, ts)

end

/-- Reads the node at the start of some tokens and gives the tokens after it. Every token takes part
in at most three steps. -/
def ofTokens? (handles : Handles) (ts : List Token) : Option (Node × List Token) :=
  read? handles (3 * ts.length + 3) true false ts

mutual

/-- The nodes with an anchor in the order of the text, each with its anchor. -/
def anchored : Node → List (Nat × Node)
  | reference _ => []
  | scalar p s => p.anchor.toList.map (·, scalar p s)
  | sequence p items => p.anchor.toList.map (·, sequence p items) ++ anchoredItems items
  | mapping p members => p.anchor.toList.map (·, mapping p members) ++ anchoredMembers members

/-- The nodes with an anchor in some nodes. -/
def anchoredItems : List Node → List (Nat × Node)
  | [] => []
  | item :: items => item.anchored ++ anchoredItems items

/-- The nodes with an anchor in the members of a mapping. -/
def anchoredMembers : List (Node × Node) → List (Nat × Node)
  | [] => []
  | (key, value) :: members => key.anchored ++ value.anchored ++ anchoredMembers members

end

end Node

end Peephole.Yaml
