import Peephole.Yaml.Node

/-!
# Taking YAML nodes apart

An alias stands for the node with its anchor, and of several nodes with one anchor for the last. A tag
says what a scalar is; without one a plain scalar can be a number or nothing, and any other scalar is
a text.
-/

set_option autoImplicit false
set_option relaxedAutoImplicit false

namespace Peephole.Yaml.Node

/-- The nodes for which aliases stand. -/
abbrev Targets := List (Nat × Node)

/-- The node for which a node stands. -/
def target? (targets : Targets) : Node → Option Node
  | reference anchor => targets.reverse.lookup anchor
  | node => some node

/-- A scalar with its tag. -/
def scalar? (targets : Targets) (node : Node) : Option (Option Tag × Scalar) :=
  match node.target? targets with
  | some (scalar p s) => some (p.tag, s)
  | _ => none

/-- The text of a scalar, whatever it is. -/
def name? (targets : Targets) (node : Node) : Option String :=
  (node.scalar? targets).map fun (_, s) ↦ String.ofList s.text

/-- Whether a tag is one that only some programs know. -/
def isLocal (tag : Tag) : Bool :=
  tag.head? = some '!'.toUInt8

/-- Whether a tag gives a value a kind that only some programs know, which it does if it is a text. -/
def isForeign (tag : Tag) : Bool :=
  isLocal tag && ByteArray.validateUTF8 ⟨tag.toArray⟩

/-- Whether a tag is a given one of the format itself. -/
def isCore (tag : Tag) (kind : String) : Bool :=
  tag = coreTag ++ Tag.ofString kind

/-- Whether a scalar without a tag is a text. A plain one is unless it stands for nothing; numbers are
taken as the text that they are. -/
def isUntaggedText (s : Scalar) : Bool :=
  s.style ≠ .plain || !(s.text.isEmpty || isNull s.text)

/-- Whether a scalar is a text. A local tag that gives no kind is like none. -/
def isText (tag : Option Tag) (s : Scalar) : Bool :=
  match tag with
  | some tag =>
    if isLocal tag then !isForeign tag && isUntaggedText s
    else ["bool", "int", "float", "null"].all fun kind ↦ !isCore tag kind
  | none => isUntaggedText s

/-- The text that a node is. -/
def string? (targets : Targets) (node : Node) : Option String := do
  let (tag, s) ← node.scalar? targets
  if isText tag s then some (String.ofList s.text) else none

/-- The texts that the items of a sequence are. -/
def strings? (targets : Targets) (node : Node) : Option (List String) :=
  match node.target? targets with
  | some (sequence p items) =>
    if p.tag.any isForeign then none else items.mapM (string? targets)
  | _ => none

/-- A natural number up to a bound. It is plain, or it has a tag and is literal. -/
def nat? (targets : Targets) (bound : Nat) (node : Node) : Option Nat := do
  let (tag, s) ← node.scalar? targets
  if s.style = .plain || (s.style = .literal && tag.any (isCore · "int")) then
    let n ← unsigned? s.text
    if n ≤ bound then some n else none
  else none

/-- Whether a node stands for nothing; `none` if it has the tag for that and is something. -/
def isNothing? (targets : Targets) (node : Node) : Option Bool :=
  match node.scalar? targets with
  | some (tag, s) =>
    if s.style ≠ .plain then some false
    else
      match tag with
      | some tag =>
        if isCore tag "null" then if isNull s.text then some true else none
        else some false
      | none => some (s.text.isEmpty || isNull s.text)
  | none => some false

/-- The members of a mapping by name. The node that is left out has none. -/
def members? (targets : Targets) : Node → Option (List (String × Node))
  | mapping _ members => members.mapM fun (key, value) ↦ (key.name? targets).map (·, value)
  | scalar _ s => if s = Scalar.empty then some [] else none
  | _ => none

end Peephole.Yaml.Node
