import Peephole.Json.Decode
import Peephole.Settings
import Peephole.Yaml.Decode
import Peephole.Yaml.Document

/-!
# Settings as JSON and YAML

The JSON form of a selection of families is the list of their names; a comma-separated text is also
accepted. The JSON form of settings has the members `rules`, `max_depth` and `max_iterations`, all of
which may be missing; other members are refused. A YAML document is a mapping with the same members.
-/

set_option autoImplicit false
set_option relaxedAutoImplicit false

namespace Peephole

namespace FamilySet

def toJson (s : FamilySet) : Json :=
  .array (s.toList.map fun f ↦ .string f.name)

def ofJson? : Json → Option FamilySet
  | .string text => (parse text).toOption
  | j => do
    let names ← Json.list? Json.string? j
    (parse (",".intercalate names)).toOption

end FamilySet

namespace Settings

/-- The names of the members. -/
def memberNames : List String :=
  ["rules", "max_depth", "max_iterations"]

/-- The largest limit. -/
def maxLimit : Nat :=
  UInt64.size - 1

def toJson (s : Settings) : Json :=
  .object [
    ("rules", s.families.toJson),
    ("max_depth", match s.maxDepth with
      | some n => .whole n
      | none => .null),
    ("max_iterations", .whole s.maxIterations)]

/-- Whether a value has no members but those of settings. -/
def hasOnlyMembers : Json → Bool
  | .object members => members.all (memberNames.contains ·.1)
  | _ => true

def ofJson? (j : Json) : Option Settings := do
  if hasOnlyMembers j then
    match ← j.fields? memberNames with
    | [rules, maxDepth, maxIterations] =>
      return ⟨← Json.orDefault standard.families FamilySet.ofJson? rules,
        ← Json.orDefault standard.maxDepth (Json.nullable? (Json.nat? maxLimit)) maxDepth,
        ← Json.orDefault standard.maxIterations (Json.nat? maxLimit) maxIterations⟩
    | _ => none
  else none

/-- The selection of families that a YAML node gives: a comma-separated text, or the names of a list. -/
def families? (targets : Yaml.Node.Targets) (node : Yaml.Node) : Option FamilySet :=
  match node.string? targets with
  | some text => (FamilySet.parse text).toOption
  | none => do
    let names ← node.strings? targets
    (FamilySet.parse (",".intercalate names)).toOption

/-- The limit that a YAML node gives, if it gives one. -/
def limit? (targets : Yaml.Node.Targets) (node : Yaml.Node) : Option (Option Nat) := do
  if ← node.isNothing? targets then some none
  else (node.nat? targets maxLimit).map some

/-- The settings that a YAML node gives. A member may be given once. -/
def ofYaml? (root : Yaml.Node) : Option Settings := do
  let targets := root.anchored
  let members ← root.members? targets
  if members.all (memberNames.contains ·.1) && (members.map (·.1)).Nodup then
    return ⟨← (members.lookup "rules").elim (some standard.families) (families? targets),
      ← (members.lookup "max_depth").elim (some standard.maxDepth) (limit? targets),
      ← (members.lookup "max_iterations").elim (some standard.maxIterations)
        (·.nat? targets maxLimit)⟩
  else none

/-- Reads settings from a YAML document, which must be a mapping. -/
def parseYaml? (text : String) : Option Settings := do
  ofYaml? (← Yaml.parse? text)

end Settings

end Peephole
