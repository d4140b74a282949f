import Peephole.Json.Decode
import Peephole.Json.Parser
import Peephole.Program.Basic

/-!
# Programs as JSON

`toJson` and `ofJson?` give the JSON form of angles, gates, qubits and programs. What is absent or
empty is left out: the index of a single qubit, the size of its declaration, the parameters of a
custom gate without any, and the guards of an unguarded application.
-/

set_option autoImplicit false
set_option relaxedAutoImplicit false

namespace Peephole

/-- The largest size, index, arity and wire number. -/
def Json.maxNumber : Nat :=
  UInt32.size - 1

namespace Angle

def toJson : Angle → Json
  | constant v => .object [("Constant", .real v)]
  | symbol name => .object [("Symbol", .string name)]
  | pi => .string "Pi"
  | neg e => .object [("Neg", e.toJson)]
  | add a b => .object [("Add", .array [a.toJson, b.toJson])]
  | sub a b => .object [("Sub", .array [a.toJson, b.toJson])]
  | mul a b => .object [("Mul", .array [a.toJson, b.toJson])]
  | div a b => .object [("Div", .array [a.toJson, b.toJson])]

/-- The operation with a name. -/
def operation? : String → Option (Angle → Angle → Angle)
  | "Add" => some add
  | "Sub" => some sub
  | "Mul" => some mul
  | "Div" => some div
  | _ => none

def ofJson? : Json → Option Angle
  | .string name => if name = "Pi" then some pi else none
  | .object [(name, .array [a, b])] => do
    return (← operation? name) (← ofJson? a) (← ofJson? b)
  | .object [(name, content)] =>
    if name = "Constant" then content.float?.map constant
    else if name = "Symbol" then content.string?.map symbol
    else if name = "Neg" then (ofJson? content).map neg
    else if name = "Pi" && Json.isVoid (some content) then some pi
    else none
  | _ => none

end Angle

namespace StandardGate

/-- The name of a gate in JSON. -/
def tag : StandardGate → String
  | x => "X"
  | y => "Y"
  | z => "Z"
  | h => "H"
  | s => "S"
  | sdg => "Sdg"
  | t => "T"
  | tdg => "Tdg"
  | p _ => "P"
  | rx _ => "Rx"
  | ry _ => "Ry"
  | rz _ => "Rz"
  | cx => "CX"
  | cy => "CY"
  | cz => "CZ"
  | swap => "Swap"
  | ccx => "CCX"

def toJson (g : StandardGate) : Json :=
  match g.params with
  | θ :: _ => .object [(g.tag, θ.toJson)]
  | [] => .string g.tag

/-- The gates with one angle, by their name in JSON. -/
def tagged? : String → Option (Angle → StandardGate)
  | "P" => some p
  | "Rx" => some rx
  | "Ry" => some ry
  | "Rz" => some rz
  | _ => none

def ofJson? (j : Json) : Option StandardGate := do
  let (tag, content) ← j.variant?
  match tagged? tag with
  | some f => return f (← content.bind Angle.ofJson?)
  | none => if Json.isVoid content then unparameterized.find? (·.tag = tag) else none

end StandardGate

namespace Gate

def toJson : Gate → Json
  | standard g => .object [("Standard", g.toJson)]
  | custom name arity params =>
    let optional := if params.isEmpty then [] else [("params", .array (params.map Angle.toJson))]
    .object [("Custom", .object
      ([("name", .string name), ("num_qubits", .whole arity)] ++ optional))]

/-- A custom gate from its record. -/
def customOfJson? (j : Json) : Option Gate := do
  match ← j.fields? ["name", "num_qubits", "params"] with
  | [name, arity, params] =>
    return custom (← Json.required Json.string? name)
      (← Json.required (Json.nat? Json.maxNumber) arity)
      (← Json.orDefault [] (Json.list? Angle.ofJson?) params)
  | _ => none

def ofJson? (j : Json) : Option Gate := do
  match ← j.variant? with
  | ("Standard", some content) => return standard (← StandardGate.ofJson? content)
  | ("Custom", some content) => customOfJson? content
  | _ => none

end Gate

namespace Qubit

def toJson (q : Qubit) : Json :=
  let optional := match q.index with
    | some i => [("index", Json.whole i)]
    | none => []
  .object ([("register", .string q.register)] ++ optional)

def ofJson? (j : Json) : Option Qubit := do
  match ← j.fields? ["register", "index"] with
  | [register, index] =>
    return ⟨← Json.required Json.string? register,
      ← Json.orDefault none (Json.nullable? (Json.nat? Json.maxNumber)) index⟩
  | _ => none

end Qubit

namespace Declaration

def toJson (d : Declaration) : Json :=
  let optional := match d.size with
    | some n => [("size", Json.whole n)]
    | none => []
  .object ([("name", .string d.name)] ++ optional)

def ofJson? (j : Json) : Option Declaration := do
  match ← j.fields? ["name", "size"] with
  | [name, size] =>
    return ⟨← Json.required Json.string? name,
      ← Json.orDefault none (Json.nullable? (Json.nat? Json.maxNumber)) size⟩
  | _ => none

end Declaration

namespace Guard

def toJson (c : Guard) : Json :=
  .object [("qubit", c.qubit.toJson), ("negated", .bool c.negated)]

def ofJson? (j : Json) : Option Guard := do
  match ← j.fields? ["qubit", "negated"] with
  | [qubit, negated] =>
    return ⟨← Json.required Qubit.ofJson? qubit, ← Json.orDefault false Json.bool? negated⟩
  | _ => none

end Guard

namespace Application

def toJson (a : Application) : Json :=
  let optional :=
    if a.guards.isEmpty then [] else [("guards", Json.array (a.guards.map Guard.toJson))]
  .object ([("gate", a.gate.toJson), ("targets", .array (a.targets.map Qubit.toJson))] ++ optional)

def ofJson? (j : Json) : Option Application := do
  match ← j.fields? ["gate", "targets", "guards"] with
  | [gate, targets, guards] =>
    return ⟨← Json.required Gate.ofJson? gate, ← Json.required (Json.list? Qubit.ofJson?) targets,
      ← Json.orDefault [] (Json.list? Guard.ofJson?) guards⟩
  | _ => none

end Application

namespace Instruction

def toJson : Instruction → Json
  | declare d => .object [("declare", d.toJson)]
  | apply a => .object [("apply", a.toJson)]

def ofJson? (j : Json) : Option Instruction := do
  match ← j.variant? with
  | ("declare", some content) => return declare (← Declaration.ofJson? content)
  | ("apply", some content) => return apply (← Application.ofJson? content)
  | _ => none

end Instruction

namespace Program

def toJson (p : Program) : Json :=
  .array (p.map Instruction.toJson)

def ofJson? (j : Json) : Option Program :=
  Json.list? Instruction.ofJson? j

/-- Reads a program from JSON text. -/
def parseJson? (text : String) : Option Program := do
  ofJson? (← Json.parse? text)

end Program

end Peephole
