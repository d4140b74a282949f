import Peephole.Yaml.Lexer
import Peephole.Yaml.Node

/-!
# YAML documents

`Yaml.parse?` reads the one document of a text. Directives may stand before it, which then begins with
a mark. A text without a document is like one that holds nothing.
-/

set_option autoImplicit false
set_option relaxedAutoImplicit false

namespace Peephole.Yaml

/-- Reads the directives of a document. The version may be given once, and each handle too. -/
def directives? (versioned : Bool) (handles : Node.Handles) :
    List Token → Option (Node.Handles × List Token)
  | .version major minor :: rest =>
    if !versioned && major = 1 && (minor = 1 || minor = 2) then directives? true handles rest
    else none
  | .tagHandle handle expansion :: rest =>
    if (handles.lookup handle).isNone then
      directives? versioned ((handle, expansion) :: handles) rest
    else none
  | rest => some (handles, rest)

/-- Whether a token is a directive or the mark of a new document. -/
def beginsDocument : Option Token → Bool
  | some (.version ..) => true
  | some (.tagHandle ..) => true
  | some .documentStart => true
  | _ => false

/-- Whether a document is over before a token. -/
def endsDocument (t : Option Token) : Bool :=
  beginsDocument t || t = some .documentEnd || t = some .streamEnd

/-- Reads the root of a document. -/
def root? (ts : List Token) : Option (Node × List Token) :=
  if ts = [.streamEnd] then some (.absent, ts)
  else if beginsDocument ts.head? then do
    match ← directives? false [] ts with
    | (handles, .documentStart :: rest) =>
      if endsDocument rest.head? then some (.absent, rest)
      else Node.ofTokens? (handles ++ Node.standardHandles) rest
    | _ => none
  else Node.ofTokens? Node.standardHandles ts

/-- Reads a text with one document at most and gives the root of it. -/
def parse? (text : String) : Option Node := do
  let (root, rest) ← root? (← tokens? text)
  if rest.dropWhile (· = .documentEnd) = [.streamEnd] then some root else none

end Peephole.Yaml
